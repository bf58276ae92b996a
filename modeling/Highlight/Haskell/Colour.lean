import Highlight.Cursor
import Highlight.Haskell.Memory
import Highlight.Haskell.Token
import Highlight.Iteration
import Highlight.Lexer

/-!
Colouring Haskell.

A step does not go forward by itself: it moves the cursor as far as it has understood the text, and a
step that only changes the state leaves the rest to the next one.
-/

namespace Highlight.Haskell

/--
What a pass is steered by.
-/
structure Settings where
  keywords : WordList
  foreignWords : WordList
  /-- Names can hold number signs. -/
  magicHash : Bool
  /-- Only the first word of a preprocessor line is a directive. -/
  withinPreprocessor : Bool
  deriving DecidableEq, Repr

def Settings.read (keywords : Keywords) (options : Options) : Settings :=
  { keywords := keywords.list 0
    foreignWords := keywords.list 1
    magicHash := options.getFlag "lexer.haskell.allow.hash" false
    withinPreprocessor := options.getFlag "styling.within.preprocessor" false }

/--
A cursor with what the words before it say. The lines before `pending` have their final state.
-/
structure Scan where
  cursor : Cursor
  memory : Memory
  pending : Nat
  deriving DecidableEq, Repr

namespace Scan

def withCursor (s : Scan) (cursor : Cursor) : Scan :=
  { s with cursor }

def withMode (s : Scan) (mode : Mode) : Scan :=
  { s with memory := { s.memory with mode } }

def withExtra (s : Scan) (extra : Nat) : Scan :=
  { s with memory := { s.memory with extra } }

/--
Store the state of each line that the cursor has left.
-/
def storeLines (s : Scan) : Scan :=
  let lines := List.range' s.pending (s.cursor.line - s.pending)
  { s with
    cursor := lines.foldl (fun c line => c.setLineState line s.memory.pack) s.cursor
    pending := max s.pending s.cursor.line }

/--
An operator takes all signs from the cursor on. A colon in front makes it a constructor, unless it is
the double colon of a type.
-/
def leaveOperator (c : Cursor) : Cursor :=
  let typeSign := c.next.is ':' && !isOperatorSign (c.byteAhead 2)
  let style := if c.sees ':' && !typeSign then Style.capital else Style.operator
  let c := repeatWhile (isOperatorSign ·.cur) Cursor.forward (c.remaining + 1) c
  (c.changeState style).setState Style.default

def leaveQuoted (quote : Code) (c : Cursor) : Cursor :=
  if c.cur == quote then
    c.forwardSetState Style.default
  else if c.cur == Code.backslash then
    c.forwardBy 2
  else if c.atLineEnd then
    c.setState Style.default
  else
    c.forward

def leaveNumber (base : Nat) (c : Cursor) : Cursor :=
  if c.cur.isDigitInBase base || (c.sees '.' && c.next.isDigitInBase base) then
    c.forward
  else if base == 10 && c.cur.isOneOf "eE" && (c.next.isDigit || c.next.isOneOf "+-") then
    let c := c.forward
    if c.cur.isOneOf "+-" then c.forward else c
  else
    c.setState Style.default

/--
The style of the name when it goes on with the current character. A point behind a capital name
qualifies what follows, be it a name or an operator.
-/
def goingOn? (magicHash : Bool) (s : Scan) : Option Nat :=
  let c := s.cursor
  let style := s.memory.extra
  if isWord magicHash c.cur then
    some style
  else if style == Style.capital.toNat && c.sees '.' then
    if c.next.isUpper then
      some Style.capital.toNat
    else if isWordStart c.next then
      some Style.identifier.toNat
    else if isOperatorSign c.next then
      some Style.operator.toNat
    else
      none
  else if style == Style.operator.toNat && isOperatorSign c.cur then
    some style
  else
    none

def goOn (magicHash : Bool) (s : Scan) : Scan :=
  match goingOn? magicHash s with
  | some style => (s.withExtra style).withCursor s.cursor.forward
  | none => s

/--
The scan behind the name that the cursor is in.
-/
def skipName (magicHash : Bool) (s : Scan) : Scan :=
  repeatWhile (fun s => s.cursor.more && (goingOn? magicHash s).isSome) (goOn magicHash) s.cursor.remaining s

def startsUpper (name : String) : Bool :=
  match name.toList with
  | c :: _ => Code.isUpper c.toNat
  | [] => false

/--
The style of a name and the mode it leads to, from the lists and the clause it stands in; `own` is
the style it has by its form.
-/
def classify (settings : Settings) (mode : Mode) (own : Style) (name : String) : Style × Mode :=
  let byClause : Style × Mode :=
    if settings.keywords.contains name then
      (Style.keyword, .plain)
    else if startsUpper name then
      if mode.isImport then
        (Style.moduleName, .imported)
      else if mode == .moduleHeader then
        (Style.moduleName, .plain)
      else
        (own, .plain)
    else if mode == .importing && name == "qualified" then
      (Style.keyword, .importing)
    else if mode == .imported && name == "as" then
      (Style.keyword, .importAlias)
    else if mode == .imported && name == "hiding" then
      (Style.keyword, .plain)
    else if mode == .typeDeclaration && name == "family" then
      (Style.keyword, .plain)
    else
      (own, .plain)
  if mode == .foreignDeclaration && settings.foreignWords.contains name then
    (Style.keyword, .foreignDeclaration)
  else
    byClause

/--
The mode behind a word that starts a clause; `mode` behind any other word. In a foreign declaration,
`import` starts none.
-/
def modeAfter (current mode : Mode) (name : String) : Mode :=
  if name == "import" && current != .foreignDeclaration then
    .importing
  else if name == "module" then
    .moduleHeader
  else if name == "foreign" then
    .foreignDeclaration
  else if name == "type" || name == "data" then
    .typeDeclaration
  else
    mode

def leaveIdentifier (settings : Settings) (s : Scan) : Scan :=
  let s := s.skipName settings.magicHash
  let name := s.cursor.token 99
  let own := if s.memory.extra < 256 then UInt8.ofNat s.memory.extra else Style.identifier
  let found := classify settings s.memory.mode own name
  { s with
    cursor := (s.cursor.changeState found.1).setState Style.default
    memory := ⟨modeAfter s.memory.mode found.2 name, 0⟩ }

/--
A line comment that so far has only dashes becomes an operator at an operator sign.
-/
def leaveCommentLine (s : Scan) : Scan :=
  let c := s.cursor
  if s.memory.extra == 1 && !c.sees '-' then
    let s := s.withExtra 0
    if isOperatorSign c.cur then s.withCursor (c.changeState Style.operator) else s
  else if c.atLineEnd then
    s.withCursor (c.setState Style.default)
  else
    s.withCursor c.forward

def leaveCommentBlock (s : Scan) : Scan :=
  let c := s.cursor
  if c.seesPair '\x7b' '-' then
    (s.withCursor (c.forwardBy 2)).withExtra (s.memory.extra + 1)
  else if c.seesPair '-' '\x7d' then
    let depth := s.memory.extra - 1
    let c := c.forwardBy 2
    (s.withCursor (if depth == 0 then c.setState Style.default else c)).withExtra depth
  else
    s.withCursor c.forward

def leavePreprocessor (within : Bool) (c : Cursor) : Cursor :=
  if within && !isWordStart c.cur then
    c.setState Style.default
  else if c.cur == Code.backslash && !within then
    c.forwardBy 2
  else if c.atLineEnd then
    c.setState Style.default
  else
    c.forward

/--
Go on with the open token, or end it.
-/
def leave (settings : Settings) (s : Scan) : Scan :=
  let c := s.cursor
  match c.state with
  | Style.operator => s.withCursor (leaveOperator c)
  | Style.string => s.withCursor (leaveQuoted Code.quote c)
  | Style.character => s.withCursor (leaveQuoted Code.apostrophe c)
  | Style.number => s.withCursor (leaveNumber s.memory.extra c)
  | Style.identifier => s.leaveIdentifier settings
  | Style.commentLine => s.leaveCommentLine
  | Style.commentBlock => s.leaveCommentBlock
  | Style.pragma =>
    s.withCursor (if c.seesText "#-\x7d" then (c.forwardBy 3).setState Style.default else c.forward)
  | Style.preprocessor => s.withCursor (leavePreprocessor settings.withinPreprocessor c)
  | _ => s

def startNumber (s : Scan) : Scan :=
  let c := s.cursor.setState Style.number
  let started :=
    if c.sees '0' && c.next.isOneOf "xX" then
      (s.withCursor (c.forwardBy 2)).withExtra 16
    else if c.sees '0' && c.next.isOneOf "oO" then
      (s.withCursor (c.forwardBy 2)).withExtra 8
    else
      (s.withCursor c.forward).withExtra 10
  started.withMode .plain

/--
Start the token that the current character belongs to. An operator only starts here, with the cursor
still in front of it.
-/
def start (s : Scan) : Scan :=
  let c := s.cursor
  if c.cur.isDigit then
    s.startNumber
  else if c.seesText "\x7b-#" then
    s.withCursor ((c.setState Style.pragma).forwardBy 3)
  else if c.seesPair '-' '-' then
    (s.withCursor ((c.setState Style.commentLine).forwardBy 2)).withExtra 1
  else if c.seesPair '\x7b' '-' then
    (s.withCursor ((c.setState Style.commentBlock).forwardBy 2)).withExtra 1
  else if c.cur == Code.quote then
    s.withCursor (c.setState Style.string).forward
  else if c.cur == Code.apostrophe then
    s.withCursor (c.setState Style.character).forward
  else if c.atLineStart && c.sees '#' then
    (s.withCursor (c.setState Style.preprocessor).forward).withMode .plain
  else if isOperatorSign c.cur then
    (s.withCursor (c.setState Style.operator)).withMode .plain
  else if isPunctuation c.cur then
    s.withCursor ((c.setState Style.operator).forwardSetState Style.default)
  else if isWordStart c.cur then
    let style := if c.cur.isUpper then Style.capital else Style.identifier
    (s.withCursor (c.setState Style.identifier).forward).withExtra style.toNat
  else
    s.withCursor c.forward

/--
Outside of a token, start the one the current character belongs to.
-/
def enter (s : Scan) : Scan :=
  if s.cursor.state == Style.default then s.start else s

def step (settings : Settings) (s : Scan) : Scan :=
  (s.storeLines.leave settings).enter

/--
The scan a pass starts with, which goes on from the line above.
-/
def ofSpan (span : Span) (doc : Document) : Scan :=
  let cursor := Cursor.start doc span
  { cursor, memory := .before doc cursor.line, pending := cursor.line }

/--
At most two steps in a row leave the cursor where it is.
-/
def bound (s : Scan) : Nat :=
  3 * s.cursor.remaining

end Scan

def colour : Pass := fun keywords span doc =>
  let s := Scan.ofSpan span doc
  let settings := Settings.read keywords doc.options
  (repeatWhile (·.cursor.more) (Scan.step settings) s.bound s).storeLines.cursor.complete

end Highlight.Haskell
