import Highlight.Cursor
import Highlight.Iteration
import Highlight.Lexer
import Highlight.Rust.Nesting
import Highlight.Rust.Token
import Highlight.Text.Split

/-!
Colouring Rust.

Comments between `/+` and `+/` nest, and their depth is the state of each line. All else that has to
be known at the start of a line is the style in front of it.
-/

namespace Highlight.Rust

/--
A cursor with the depth of nested comments, the style of the comment around a documentation keyword,
and what was seen of the number the cursor is in.
-/
structure Scan where
  cursor : Cursor
  nesting : Nat
  docComment : Style
  seenPoint : Bool
  hexadecimal : Bool
  deriving DecidableEq, Repr

namespace Scan

def withCursor (s : Scan) (cursor : Cursor) : Scan :=
  { s with cursor }

/--
Let the state of the current line be the depth of nested comments.
-/
def storeNesting (s : Scan) : Scan :=
  s.withCursor (s.cursor.setLineState s.cursor.line (Nesting.pack s.nesting))

/--
A number goes on with letters, digits and underscores, with one point that starts no range, and with
the sign of an exponent.
-/
def leaveNumber (s : Scan) : Scan :=
  let c := s.cursor
  if c.cur.isAlphanumeric || c.sees '_' then
    s
  else if c.sees '.' && !c.next.is '.' && !s.seenPoint then
    { s with seenPoint := true }
  else if (c.sees '-' || c.sees '+') &&
      ((!s.hexadecimal && c.prev.isOneOf "eE") || c.prev.isOneOf "pP") then
    s
  else
    s.withCursor (c.setState Style.default)

/--
The style of a word: that of the first list which has it.
-/
def wordStyle (keywords : Keywords) (word : String) : Style :=
  if (keywords.list 0).contains word then
    Style.primaryWord
  else if (keywords.list 1).contains word then
    Style.secondaryWord
  else if (keywords.list 3).contains word then
    Style.typeWord
  else
    Style.identifier

def leaveIdentifier (keywords : Keywords) (c : Cursor) : Cursor :=
  if isWord c.cur then
    c
  else
    (c.changeState (wordStyle keywords (c.token 1000))).setState Style.default

/--
End the comment behind the two characters at the cursor.
-/
def closeComment (c : Cursor) : Cursor :=
  c.forward.forwardSetState Style.default

/--
Whether a documentation keyword starts at the cursor, in a comment where it can stand behind a space
or one of `openers`.
-/
def startsDocKeyword (openers : String) (c : Cursor) : Bool :=
  (c.sees '@' || c.cur == Code.backslash) && (c.prev.isSpace || c.prev.isOneOf openers) && !c.next.isSpace

/--
A documentation keyword is in error unless its list has it and a space follows. The end of the
comment ends it too.
-/
def leaveDocKeyword (keywords : Keywords) (s : Scan) : Scan :=
  let c := s.cursor
  if s.docComment == Style.commentDoc && c.seesPair '*' '/' then
    s.withCursor (closeComment (c.changeState Style.docKeywordError))
  else if isDocWord c.cur then
    s
  else
    let word := withoutFirstByte (c.token 100)
    let known := c.cur.isSpace && (keywords.list 2).contains word
    let c := if known then c else c.changeState Style.docKeywordError
    s.withCursor (c.setState s.docComment)

def leaveNested (s : Scan) : Scan :=
  if s.cursor.seesPair '+' '/' then
    let s := { s with nesting := s.nesting - 1 }.storeNesting
    let c := s.cursor.forward
    s.withCursor (if s.nesting == 0 then c.forwardSetState Style.default else c)
  else if s.cursor.seesPair '/' '+' then
    let s := { s with nesting := s.nesting + 1 }.storeNesting
    s.withCursor s.cursor.forward
  else
    s

/--
End a string behind its closing quote and the letter that may follow.
-/
def closeString (c : Cursor) : Cursor :=
  (if isStringSuffix c.next then c.forward else c).forwardSetState Style.default

def leaveString (c : Cursor) : Cursor :=
  if c.cur == Code.backslash then
    if c.next == Code.quote || c.next == Code.backslash then c.forward else c
  else if c.cur == Code.quote then
    closeString c
  else
    c

def leaveCharacter (c : Cursor) : Cursor :=
  if c.atLineEnd then
    c.changeState Style.characterUnclosed
  else if c.cur == Code.backslash then
    if c.next == Code.apostrophe || c.next == Code.backslash then c.forward else c
  else if c.cur == Code.apostrophe then
    c.forwardSetState Style.default
  else
    c

def leaveLine (c : Cursor) : Cursor :=
  if c.atLineStart then c.setState Style.default else c

/--
End the open token if it does not go on with the current character.
-/
def leave (keywords : Keywords) (s : Scan) : Scan :=
  let c := s.cursor
  match c.state with
  | Style.operator => s.withCursor (c.setState Style.default)
  | Style.number => s.leaveNumber
  | Style.identifier => s.withCursor (leaveIdentifier keywords c)
  | Style.comment => if c.seesPair '*' '/' then s.withCursor (closeComment c) else s
  | Style.commentDoc =>
    if c.seesPair '*' '/' then
      s.withCursor (closeComment c)
    else if startsDocKeyword "*" c then
      { s with docComment := Style.commentDoc, cursor := c.setState Style.docKeyword }
    else
      s
  | Style.commentLine => s.withCursor (leaveLine c)
  | Style.commentLineDoc =>
    if c.atLineStart then
      s.withCursor (c.setState Style.default)
    else if startsDocKeyword "/!" c then
      { s with docComment := Style.commentLineDoc, cursor := c.setState Style.docKeyword }
    else
      s
  | Style.docKeyword => s.leaveDocKeyword keywords
  | Style.commentNested => s.leaveNested
  | Style.string => s.withCursor (leaveString c)
  | Style.character => s.withCursor (leaveCharacter c)
  | Style.characterUnclosed => s.withCursor (leaveLine c)
  | Style.backtickString => if c.cur == Code.backtick then s.withCursor (closeString c) else s
  | Style.rawString => if c.cur == Code.quote then s.withCursor (closeString c) else s
  | _ => s

/--
Start the token that the current character belongs to.
-/
def start (s : Scan) : Scan :=
  let c := s.cursor
  if c.cur.isDigit || (c.sees '.' && c.next.isDigit) then
    { s with
      cursor := c.setState Style.number
      seenPoint := c.sees '.'
      hexadecimal := c.sees '0' && c.next.isOneOf "xX" }
  else if c.cur.isOneOf "rxq" && c.next == Code.quote then
    s.withCursor (c.setState Style.rawString).forward
  else if isWordStart c.cur || c.sees '$' then
    s.withCursor (c.setState Style.identifier)
  else if c.seesPair '/' '+' then
    let s := { s with nesting := s.nesting + 1 }.storeNesting
    s.withCursor (s.cursor.setState Style.commentNested).forward
  else if c.seesPair '/' '*' then
    -- The star is taken along, so that it does not close the comment.
    let style := if c.seesText "/**" || c.seesText "/*!" then Style.commentDoc else Style.comment
    s.withCursor (c.setState style).forward
  else if c.seesPair '/' '/' then
    let doc := (c.seesText "///" && !c.seesText "////") || c.seesText "//!"
    s.withCursor (c.setState (if doc then Style.commentLineDoc else Style.commentLine))
  else if c.cur == Code.quote then
    s.withCursor (c.setState Style.string)
  else if c.cur == Code.apostrophe then
    s.withCursor (c.setState Style.character)
  else if c.cur == Code.backtick then
    s.withCursor (c.setState Style.backtickString)
  else if c.cur.isOperator then
    let operator := c.setState Style.operator
    s.withCursor (if c.seesPair '.' '.' then operator.forward else operator)
  else
    s

/--
Outside of a token, start the one the current character belongs to.
-/
def enter (s : Scan) : Scan :=
  if s.cursor.state == Style.default then s.start else s

def step (keywords : Keywords) (s : Scan) : Scan :=
  let s := if s.cursor.atLineStart then s.storeNesting else s
  let s := (s.leave keywords).enter
  s.withCursor s.cursor.forward

/--
The scan a pass starts with, which goes on from the line above.
-/
def ofSpan (span : Span) (doc : Document) : Scan :=
  let cursor := Cursor.start doc span
  { cursor
    nesting := Nesting.before doc cursor.line
    docComment := Style.default
    seenPoint := false
    hexadecimal := false }

end Scan

def colour : Pass := fun keywords span doc =>
  let s := Scan.ofSpan span doc
  (repeatWhile (·.cursor.more) (Scan.step keywords) s.cursor.remaining s).cursor.complete

end Highlight.Rust
