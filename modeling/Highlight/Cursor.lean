import Highlight.Pen

/-!
The cursor that languages walk over a text with: one character at a time, with the characters before
and after it, the line it stands on, and the style that the open token gets when it ends.
-/

namespace Highlight

/--
A cursor over the whole lines of a span that ends at `stop`, or one past the text if the span ends
with the text. `width` and `nextWidth` are the widths of the current and the next character.
-/
structure Cursor where
  pen : Pen
  stop : Nat
  pos : Nat
  line : Nat
  width : Nat
  nextWidth : Nat
  atLineStart : Bool
  atLineEnd : Bool
  state : Style
  prev : Code
  cur : Code
  next : Code
  deriving DecidableEq, Repr

namespace Cursor

def doc (c : Cursor) : Document :=
  c.pen.doc

/--
Whether the current character is the last one of its line. On the last line of a text, that is the
position past the text.
-/
def closesLine (c : Cursor) : Bool :=
  if c.line + 1 < c.doc.lineCount then
    c.doc.lineStart (c.line + 1) ≤ c.pos + c.width
  else
    c.doc.lineStart (c.line + 1) < c.pos + c.width

/--
Read the character after the current one.
-/
def readNext (c : Cursor) : Cursor :=
  let read := c.doc.decodeAt (c.pos + c.width)
  { c with next := read.1, nextWidth := read.2, atLineEnd := c.closesLine }

/--
Place a cursor at the start of the whole lines of a span.
-/
def start (doc : Document) (span : Span) : Cursor :=
  let span := doc.wholeLines span
  let read := doc.decodeAt span.start
  let line := doc.lineOf span.start
  readNext
    { pen := ⟨doc, span.start⟩
      stop := if span.stop == doc.size then span.stop + 1 else span.stop
      pos := span.start
      line
      width := read.2
      nextWidth := 1
      atLineStart := doc.lineStart line == span.start
      atLineEnd := false
      state := span.style
      prev := if 0 < span.start then (doc.byteAt (span.start - 1) 0).toNat else 0
      cur := read.1
      next := 0 }

/--
Whether the cursor is still inside of its span.
-/
def more (c : Cursor) : Bool :=
  c.pos < c.stop

/--
How many steps forward lead out of the span at most.
-/
def remaining (c : Cursor) : Nat :=
  c.stop - c.pos

/--
Go to the next character. Past the span the cursor stands still and sees blanks.
-/
def forward (c : Cursor) : Cursor :=
  if c.more then
    readNext
      { c with
        atLineStart := c.atLineEnd
        line := if c.atLineEnd then c.line + 1 else c.line
        prev := c.cur
        pos := c.pos + c.width
        cur := c.next
        width := c.nextWidth }
  else
    { c with
      atLineStart := false
      atLineEnd := true
      prev := Code.blank
      cur := Code.blank
      next := Code.blank }

def forwardBy (c : Cursor) (count : Nat) : Cursor :=
  match count with
  | 0 => c
  | count + 1 => c.forward.forwardBy count

/--
Paint the open token, which ends in front of the current character.
-/
def commit (c : Cursor) : Cursor :=
  { c with pen := c.pen.colourTo c.pos c.state }

/--
Give the open token another style without ending it.
-/
def changeState (c : Cursor) (state : Style) : Cursor :=
  { c with state }

/--
End the open token in front of the current character and open one with the style `state`.
-/
def setState (c : Cursor) (state : Style) : Cursor :=
  c.commit.changeState state

/--
End the open token behind the current character and open one with the style `state`.
-/
def forwardSetState (c : Cursor) (state : Style) : Cursor :=
  c.forward.setState state

/--
End the last token; the document that the pass leaves.
-/
def complete (c : Cursor) : Document :=
  c.commit.doc

def setLineState (c : Cursor) (line : Nat) (state : LineState) : Cursor :=
  { c with pen := c.pen.setLineState line state }

def setLevel (c : Cursor) (line : Nat) (level : Level) : Cursor :=
  { c with pen := c.pen.setLevel line level }

/--
The number of bytes in the open token.
-/
def tokenLength (c : Cursor) : Nat :=
  c.pos - c.pen.segment

/--
The byte `count` positions ahead as a character, 0 past the end.
-/
def byteAhead (c : Cursor) (count : Nat) : Code :=
  (c.doc.byteAt (c.pos + count) 0).toNat

/--
Whether the current character is `x`.
-/
def sees (c : Cursor) (x : Char) : Bool :=
  c.cur.is x

/--
Whether the current character is `x` and the next one is `y`.
-/
def seesPair (c : Cursor) (x y : Char) : Bool :=
  c.cur.is x && c.next.is y

def bytesAgree (doc : Document) (fold : Code → Code) (pos : Nat) (bytes : List UInt8) : Bool :=
  match bytes with
  | [] => true
  | b :: bytes => fold (doc.byteAt pos 0).toNat == b.toNat && bytesAgree doc fold (pos + 1) bytes

/--
Whether the text from the cursor on, after `fold`, is `s`. The first two characters are compared as
characters, the others as bytes.
-/
def matchesBy (c : Cursor) (fold : Code → Code) (s : String) : Bool :=
  match Utf8.encode s with
  | [] => true
  | [first] => fold c.cur == first.toNat
  | first :: second :: rest =>
    fold c.cur == first.toNat && fold c.next == second.toNat && bytesAgree c.doc fold (c.pos + 2) rest

def seesText (c : Cursor) (s : String) : Bool :=
  c.matchesBy id s

/--
Whether the text from the cursor on is `s`, which is in lower case, in any case.
-/
def seesTextIgnoringCase (c : Cursor) (s : String) : Bool :=
  c.matchesBy Code.toLower s

/--
Whether the cursor stands on the first byte of the terminator of its line.
-/
def seesLineEnd (c : Cursor) : Bool :=
  c.pos == c.doc.lineEnd c.line

/--
The text of the open token, or of its first `limit` bytes if it is longer.
-/
def token (c : Cursor) (limit : Nat) : String :=
  Utf8.decodeLossy (c.doc.bytes c.pen.segment (min c.pos (c.pen.segment + limit)))

def tokenLower (c : Cursor) (limit : Nat) : String :=
  (c.token limit).toLower

end Cursor

end Highlight
