import Highlight.Cursor
import Highlight.Gibiane.Token
import Highlight.Iteration
import Highlight.Lexer

/-!
Colouring Gibiane.

A star at the start of a line makes the line a comment. A keyword can be written in quotes. Nothing
but the style in front of a line is needed to go on there.
-/

namespace Highlight.Gibiane

/--
The style of a word: that of the first list which has it.
-/
def wordStyle? (keywords : Keywords) (word : String) : Option Style :=
  (Style.words.zipIdx.find? fun entry => (keywords.list entry.2).contains word).map (·.1)

/--
A cursor, whether the last character that could be a part of a number was one, and the position
where the pass starts.
-/
structure Scan where
  cursor : Cursor
  inNumber : Bool
  first : Nat
  deriving DecidableEq, Repr

namespace Scan

def withCursor (s : Scan) (cursor : Cursor) : Scan :=
  { s with cursor }

/--
Whether the current character is a part of a number: a digit, or a point in front of one, between
separators, points and other digits of the number.
-/
def seesNumber (s : Scan) : Bool :=
  let c := s.cursor
  (c.cur.isDigit || (c.sees '.' && c.next.isDigit))
    && (c.prev.is '.' || (c.prev.isDigit && s.inNumber) || isSeparator c.prev)
    && (c.next.is '.' || c.next.isDigit || isSeparator c.next)

/--
The style of a quoted keyword, `token` being the quote and the letters.
-/
def quotedStyle? (keywords : Keywords) (token : String) : Option Style :=
  match token.toList with
  | c :: rest => if isQuote c.toNat then wordStyle? keywords (String.ofList rest) else none
  | [] => none

/--
Whether the first byte of `token` is a separator.
-/
def startsWithSeparator (token : String) : Bool :=
  match token.toList with
  | c :: _ => isSeparator c.toNat
  | [] => false

/--
End the open token `token` if it does not go on with the current character.
-/
def leave (keywords : Keywords) (token : String) (c : Cursor) : Cursor :=
  match c.state with
  | Style.comment => if c.atLineEnd then c.setState Style.default else c
  | Style.string =>
    if isQuote c.cur then
      (c.forward.changeState ((quotedStyle? keywords token).getD c.state)).setState Style.default
    else
      c
  | Style.number => c.setState Style.default
  | _ => if startsWithSeparator token then c.setState Style.default else c

/--
Outside of a token, start the one the current character belongs to; a separator ends the word
`token`.
-/
def enter (keywords : Keywords) (token : String) (s : Scan) : Scan :=
  let c := s.cursor
  if c.state != Style.default then
    s
  else if c.sees '*' && (c.prev.isLineEnd || c.pos == s.first) then
    s.withCursor (c.setState Style.comment)
  else if isQuote c.cur then
    s.withCursor (c.setState Style.string)
  else
    let inNumber := s.seesNumber
    let c :=
      if inNumber then
        c.setState Style.number
      else if isSeparator c.cur then
        (c.changeState ((wordStyle? keywords token).getD Style.default)).setState Style.default
      else if c.sees '.' then
        (c.changeState Style.table).setState Style.default
      else
        c
    { s with cursor := c, inNumber }

def step (keywords : Keywords) (s : Scan) : Scan :=
  let token := s.cursor.tokenLower 99
  let s := (s.withCursor (leave keywords token s.cursor)).enter keywords token
  s.withCursor s.cursor.forward

def ofSpan (span : Span) (doc : Document) : Scan :=
  let cursor := Cursor.start doc span
  { cursor, inNumber := false, first := cursor.pos }

end Scan

def colour : Pass := fun keywords span doc =>
  let s := Scan.ofSpan span doc
  (repeatWhile (·.cursor.more) (Scan.step keywords) s.cursor.remaining s).cursor.complete

end Highlight.Gibiane
