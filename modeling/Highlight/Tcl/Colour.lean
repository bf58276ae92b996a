import Highlight.Cursor
import Highlight.Iteration
import Highlight.Lexer
import Highlight.Tcl.Memory
import Highlight.Tcl.Token

/-!
Colouring and folding Tcl in one pass.

The level of a line is stored when the cursor comes to its end. Braces fold, and so do lines of
comments outside of all braces, if comments fold.
-/

namespace Highlight.Tcl

structure Settings where
  keywords : Keywords
  foldComments : Bool
  deriving DecidableEq, Repr

def Settings.read (keywords : Keywords) (options : Options) : Settings :=
  { keywords, foldComments := options.getFlag "fold.comment" false }

/--
What comes after a step.
-/
inductive Flow where
  /-- A step at the next character. -/
  | forward
  /-- A step at the character that the cursor stands on now. -/
  | again
  /-- Nothing. -/
  | stop
  deriving DecidableEq, Repr

/--
A cursor with what is known about the place it stands on.
-/
structure Scan where
  cursor : Cursor
  /-- One of the open braces is a block of comment lines. -/
  inCommentBlock : Bool
  /-- The cursor is inside of a substitution with braces. -/
  inBraces : Bool
  /-- What the last line end left open. -/
  opened : Opened
  /-- The character in front was a backslash that counts. -/
  escaped : Bool
  /-- The number of open braces. -/
  depth : Int
  /-- The number of open braces at the start of the line. -/
  lineDepth : Int
  /-- The next word can be a command. -/
  commandExpected : Bool
  /-- The number of open parentheses in a substitution. -/
  parens : Nat
  /-- The line shows something so far. -/
  visible : Bool
  deriving DecidableEq, Repr

namespace Scan

def withCursor (s : Scan) (cursor : Cursor) : Scan :=
  { s with cursor }

/--
Whether the open token and a brace in front of it end at the cursor.
-/
def openedByBrace (c : Cursor) (word : String) : Bool :=
  word.utf8ByteSize < c.pos && c.doc.byteAt (c.pos - (word.utf8ByteSize + 1)) 0 == 0x7B

/--
The style of a command, from the first four lists or, between braces that it touches, from the list
of words that expand.
-/
def commandStyle? (keywords : Keywords) (c : Cursor) (word : String) : Option Style :=
  let isIn (index : Nat) := (keywords.list index).contains word
  let command (style : Style) := some (if c.state == Style.inQuote then Style.wordInQuote else style)
  if isIn 0 then
    command Style.tclWord
  else if isIn 1 then
    command Style.tkWord
  else if isIn 2 then
    command Style.itclWord
  else if isIn 3 then
    command Style.tkCommand
  else if openedByBrace c word && isIn 4 && c.sees '\x7d' then
    some Style.expand
  else
    none

/--
The style of a word in one of the user's lists, which go before all others.
-/
def userStyle? (keywords : Keywords) (word : String) : Option Style :=
  let isIn (index : Nat) := (keywords.list index).contains word
  if isIn 5 then
    some Style.userWord1
  else if isIn 6 then
    some Style.userWord2
  else if isIn 7 then
    some Style.userWord3
  else if isIn 8 then
    some Style.userWord4
  else
    none

/--
End the word in front of the cursor.
-/
def leaveWord (keywords : Keywords) (s : Scan) : Scan :=
  let c := s.cursor
  let word := c.token 99
  let after := if c.state == Style.inQuote then Style.inQuote else Style.default
  let style? :=
    if s.inCommentBlock || s.commandExpected then
      userStyle? keywords word <|> commandStyle? keywords c word
    else
      none
  { s with commandExpected := false, cursor := (c.changeState (style?.getD c.state)).setState after }

/--
Inside of a substitution with braces, only the closing brace has a meaning.
-/
def leaveBraces (s : Scan) : Scan :=
  let c := s.cursor
  if c.sees '\x7d' then
    { s with inBraces := false, cursor := (c.setState Style.operator).forwardSetState Style.default }
  else
    s.withCursor (c.setState Style.bracedSubstitution)

/--
A substitution is a name and parentheses, which have to match.
-/
def leaveSubstitution (s : Scan) : Scan :=
  let c := s.cursor
  if c.sees '(' then
    { s with parens := s.parens + 1 }
  else if c.sees ')' then
    if 0 < s.parens then { s with parens := s.parens - 1 } else s.withCursor (c.setState Style.default)
  else if isWord c.cur then
    s
  else
    { s with parens := 0, cursor := c.setState Style.default }

/--
End the open word if it does not go on with the current character.
-/
def leave (keywords : Keywords) (s : Scan) : Scan :=
  let c := s.cursor
  if s.inBraces then
    s.leaveBraces
  else if c.state == Style.default || c.state == Style.operator then
    { s with commandExpected := s.commandExpected && (c.cur.isSpace || isWordStart c.cur) }
  else if c.state == Style.substitution then
    s.leaveSubstitution
  else if !isWord c.cur &&
      (c.state == Style.identifier || c.state == Style.modifier || s.commandExpected) then
    s.leaveWord keywords
  else
    s

/--
A comment line outside of all braces opens a block, which the next line that shows something closes.
-/
def foldComment (foldComments : Bool) (s : Scan) : Scan :=
  if foldComments && s.cursor.state == Style.commentLine then
    if s.depth == 0 then { s with depth := 1, inCommentBlock := true } else s
  else if s.visible && s.inCommentBlock then
    { s with depth := s.depth - 1, lineDepth := s.lineDepth - 1, inCommentBlock := false }
  else
    s

/--
Store the level and the state of the line, and get ready for the next one.
-/
def endLine (foldComments : Bool) (s : Scan) : Scan :=
  let s := s.foldComment foldComments
  let c := s.cursor
  let level := packLevel (Int32.ofInt s.lineDepth) (Int32.ofInt s.depth) s.inCommentBlock s.visible
  let opened :=
    if c.state == Style.inQuote then
      .quote
    else if s.escaped && isComment c.state then
      .comment
    else
      s.opened
  let memory : Memory := { opened, commandExpected := s.commandExpected, inBraces := s.inBraces }
  { s with
    cursor := ((c.setLevel c.line level).setLineState c.line memory.pack).setState Style.default
    opened
    escaped := false
    lineDepth := s.depth
    visible := false }

/--
Start a substitution, with the cursor on the dollar sign. One with braces starts behind the brace.
-/
def startSubstitution (s : Scan) : Scan × Flow :=
  let c := s.cursor
  if c.next.is '\x7b' then
    ({ s with
        parens := 0
        inBraces := true
        cursor := (c.forwardSetState Style.operator).forwardSetState Style.bracedSubstitution }, .again)
  else
    ({ s with parens := 0, cursor := c.setState Style.substitution }, .forward)

/--
Start the token that the current character belongs to.
-/
def start (s : Scan) : Scan × Flow :=
  let c := s.cursor
  let operator := c.setState Style.operator
  if c.cur.isDigit || (c.sees '.' && c.next.isDigit) then
    (s.withCursor (c.setState Style.number), .forward)
  else if isWordStart c.cur && s.commandExpected then
    (s.withCursor (c.setState Style.identifier), .forward)
  else if c.cur == Code.quote then
    (s.withCursor (c.setState Style.inQuote), .forward)
  else if c.sees '\x7b' then
    ({ s with cursor := operator, commandExpected := true, depth := s.depth + 1 }, .forward)
  else if c.sees '\x7d' then
    ({ s with cursor := operator, depth := s.depth - 1 }, .forward)
  else if c.cur.isOneOf "[]" then
    ({ s with cursor := operator, commandExpected := true }, .forward)
  else if c.cur.isOneOf "()" then
    (s.withCursor operator, .forward)
  else if c.sees ';' then
    ({ s with commandExpected := true }, .forward)
  else if c.sees '$' then
    s.startSubstitution
  else if c.sees '-' && !c.next.isDigit then
    (s.withCursor (c.setState Style.modifier), .forward)
  else
    (s, .forward)

/--
A number sign starts a comment on a line that shows nothing yet, and where a command is expected.
-/
def startComment (s : Scan) : Scan :=
  if s.cursor.sees '#' then
    if !s.visible then
      s.withCursor (s.cursor.setState Style.commentLine)
    else if s.commandExpected then
      { s with cursor := s.cursor.setState Style.comment, commandExpected := false }
    else
      s
  else
    s

def enter (s : Scan) : Scan × Flow :=
  let s := s.startComment
  let s := { s with visible := s.visible || !s.cursor.cur.isSpace }
  if s.cursor.cur == Code.backslash then
    ({ s with escaped := true }, .forward)
  else if s.cursor.state == Style.default then
    s.start
  else
    (s, .forward)

/--
In a word in quotes, brackets and dollar signs are operators.
-/
def stepInQuote (s : Scan) : Scan × Flow :=
  let c := s.cursor
  if c.cur == Code.quote then
    ({ s with cursor := c.forwardSetState Style.default, visible := true }, .again)
  else if c.cur.isOneOf "[]$" then
    ({ s with
        cursor := (c.setState Style.operator).forwardSetState Style.inQuote
        commandExpected := c.sees '[' }, .again)
  else
    ({ s with escaped := c.cur == Code.backslash }, .forward)

def stepInState (s : Scan) : Scan × Flow :=
  let c := s.cursor
  match c.state with
  | Style.inQuote => s.stepInQuote
  | Style.number => (if isNumber c.cur then s else s.withCursor (c.setState Style.default)).enter
  | Style.operator => (s.withCursor (c.setState Style.default)).enter
  | _ => s.enter

/--
At the start of a line, go on with what the last line left open.
-/
def stepInLine (s : Scan) : Scan × Flow :=
  let c := s.cursor
  if c.atLineStart then
    let closed := { s with opened := .nothing }
    match s.opened with
    | .comment => (closed.withCursor (c.setState Style.comment), .forward)
    | .quote => (closed.withCursor (c.setState Style.inQuote)).stepInState
    | .nothing =>
      { closed with
        cursor := c.setState Style.default
        commandExpected := isWordStart c.cur || c.cur.isSpace }.stepInState
  else
    s.stepInState

/--
One step. `atEnd` says that the span is over and the step only ends the last word.
-/
def step (settings : Settings) (atEnd : Bool) (s : Scan) : Scan × Flow :=
  let inBraces := s.inBraces
  let s := s.leave settings.keywords
  if inBraces && !s.cursor.atLineEnd then
    (s, .forward)
  else if atEnd then
    (s, .stop)
  else if s.cursor.atLineEnd then
    (s.endLine settings.foldComments, .forward)
  else if s.escaped then
    ({ s with escaped := isComment s.cursor.state && s.cursor.cur.isSpace }, .forward)
  else
    s.stepInLine

/--
The scan a pass starts with. It goes on from the line above; the first line starts as a header.
-/
def ofSpan (span : Span) (doc : Document) : Scan :=
  let cursor := Cursor.start doc span
  let line := cursor.line
  let fresh : Scan :=
    { cursor
      inCommentBlock := false
      inBraces := false
      opened := .nothing
      escaped := false
      depth := 0
      lineDepth := 0
      commandExpected := false
      parens := 0
      visible := false }
  if 0 < line then
    let memory := Memory.unpack (doc.lineState (line - 1))
    let level := doc.level (line - 1)
    let depth := (depthAfter level).toInt
    { fresh with
      inCommentBlock := Tcl.inCommentBlock level
      inBraces := memory.inBraces
      opened := memory.opened
      depth
      lineDepth := depth
      commandExpected := memory.commandExpected }
  else
    fresh.withCursor (cursor.setLevel 0 (Level.base ||| Level.headerFlag))

end Scan

/--
A scan between two steps.
-/
structure Walk where
  scan : Scan
  /-- The cursor was past its span after the last step forward. -/
  atEnd : Bool
  /-- There is no further step. -/
  stopped : Bool
  deriving DecidableEq, Repr

namespace Walk

def ofScan (scan : Scan) : Walk :=
  { scan, atEnd := !scan.cursor.more, stopped := false }

def next (settings : Settings) (walk : Walk) : Walk :=
  match walk.scan.step settings walk.atEnd with
  | (scan, .forward) => ofScan (scan.withCursor scan.cursor.forward)
  | (scan, .again) => { walk with scan }
  | (scan, .stop) => { walk with scan, stopped := true }

/--
Each step but the last few goes forward.
-/
def bound (walk : Walk) : Nat :=
  walk.scan.cursor.remaining + 4

/--
All steps up to the one that stops.
-/
def run (settings : Settings) (walk : Walk) : Walk :=
  repeatWhile (!·.stopped) (next settings) walk.bound walk

end Walk

def colour : Pass := fun keywords span doc =>
  let walk := Walk.ofScan (Scan.ofSpan span doc)
  (walk.run (Settings.read keywords doc.options)).scan.cursor.complete

end Highlight.Tcl
