/-!
YAML texts as characters with their places.

The places are what indentation is read from. All line ends but U+2028 and U+2029 are line feeds
here, so that no reader has to tell them apart.
-/

namespace Highlight.Yaml

/--
A character of a text with the line and the column it stands in.
-/
structure Glyph where
  char : Char
  line : Nat
  column : Nat
  deriving DecidableEq, Repr

/--
The rest of a text.
-/
abbrev Source := List Glyph

/--
Whether a character can stand in a YAML text.
-/
def isAllowed (c : Char) : Bool :=
  c == '\t' || c == '\n' || c == '\r' || (' ' ≤ c && c ≤ '~') || c.toNat == 0x85 ||
    (0xA0 ≤ c.toNat && c.toNat != 0xFFFE && c.toNat != 0xFFFF)

def isBlank (c : Char) : Bool :=
  c == ' ' || c == '\t'

def isLineEnd (c : Char) : Bool :=
  c == '\n' || c == '\u2028' || c == '\u2029'

def isGap (c : Char) : Bool :=
  isBlank c || isLineEnd c

/--
The characters that names consist of.
-/
def isWordChar (c : Char) : Bool :=
  c.isAlphanum || c == '_' || c == '-'

/--
The signs that lists and mappings in brackets and braces are written with.
-/
def isFlowSign (c : Char) : Bool :=
  c == ',' || c == '[' || c == ']' || c == '\x7b' || c == '\x7d'

def Source.ofText.go (line column : Nat) (text : List Char) : Source :=
  match text with
  | [] => []
  | '\r' :: '\n' :: rest => ⟨'\n', line, column⟩ :: go (line + 1) 0 rest
  | c :: rest =>
    if c == '\r' || c == '\u0085' then
      ⟨'\n', line, column⟩ :: go (line + 1) 0 rest
    else if isLineEnd c then
      ⟨c, line, column⟩ :: go (line + 1) 0 rest
    else
      ⟨c, line, column⟩ :: go line (column + 1) rest

def Source.ofText (text : List Char) : Source :=
  Source.ofText.go 0 0 text

/--
The characters without their places.
-/
def chars (s : Source) : List Char :=
  s.map (·.char)

/--
Whether a character with the property `p` comes first.
-/
def startsWith (p : Char → Bool) (s : Source) : Bool :=
  match s with
  | [] => false
  | g :: _ => p g.char

/--
Whether nothing but a blank, a line end or the end of the text comes first, as behind all signs that
are no part of a word.
-/
def startsGap (s : Source) : Bool :=
  match s with
  | [] => true
  | g :: _ => isGap g.char

/--
Whether a character in the column `column` comes first.
-/
def startsIn (column : Nat) (s : Source) : Bool :=
  match s with
  | [] => false
  | g :: _ => g.column == column

def dropBlanks (s : Source) : Source :=
  s.dropWhile fun g => isBlank g.char

/--
What is left from the end of the line on.
-/
def dropLine (s : Source) : Source :=
  s.dropWhile fun g => !isLineEnd g.char

/--
Leave a line of which nothing but a comment may be left.
-/
def finishLine? (s : Source) : Option Source :=
  let s := dropBlanks s
  let s := if startsWith (· == '#') s then dropLine s else s
  if s.isEmpty || startsWith isLineEnd s then some (s.drop 1) else none

/--
Whether a line starts here with three of the sign `c` and nothing else in the same word. Such lines
separate documents.
-/
def startsMarker (c : Char) (s : Source) : Bool :=
  match s with
  | [] => false
  | g :: _ => g.column == 0 && chars (s.take 3) == [c, c, c] && startsGap (s.drop 3)

def startsAnyMarker (s : Source) : Bool :=
  startsMarker '-' s || startsMarker '.' s

end Highlight.Yaml
