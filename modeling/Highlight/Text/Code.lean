/-!
Decoded characters and their classes.

A character is a number: a Unicode scalar value, a byte, or the two bytes of a double-byte
character. Every class here holds ASCII characters only, so a number from 128 on is in none of them.
-/

namespace Highlight

/--
A decoded character.
-/
abbrev Code := Nat

namespace Code

abbrev tab : Code := 0x09
abbrev lineFeed : Code := 0x0A
abbrev carriageReturn : Code := 0x0D
abbrev blank : Code := 0x20
abbrev quote : Code := 0x22
abbrev apostrophe : Code := 0x27
abbrev backslash : Code := 0x5C
abbrev backtick : Code := 0x60

/--
Whether `c` is the character `x`.
-/
def is (c : Code) (x : Char) : Bool :=
  c == x.toNat

/--
Whether `c` is one of the characters of `s`.
-/
def isOneOf (c : Code) (s : String) : Bool :=
  s.toList.any c.is

/--
A blank, a tab, or one of the four characters between the line feed and the carriage return.
-/
def isSpace (c : Code) : Bool :=
  c == blank || (0x09 ≤ c && c ≤ 0x0D)

def isSpaceOrTab (c : Code) : Bool :=
  c == blank || c == tab

def isLineEnd (c : Code) : Bool :=
  c == carriageReturn || c == lineFeed

def isDigit (c : Code) : Bool :=
  0x30 ≤ c && c ≤ 0x39

def isUpper (c : Code) : Bool :=
  0x41 ≤ c && c ≤ 0x5A

def isLower (c : Code) : Bool :=
  0x61 ≤ c && c ≤ 0x7A

def isAlpha (c : Code) : Bool :=
  c.isUpper || c.isLower

def isAlphanumeric (c : Code) : Bool :=
  c.isAlpha || c.isDigit

def isAscii (c : Code) : Bool :=
  c < 0x80

/--
The value of a digit, where the letters of either case go on from ten.
-/
def digitValue? (c : Code) : Option Nat :=
  if c.isDigit then
    some (c - 0x30)
  else if c.isLower then
    some (c - 0x61 + 10)
  else if c.isUpper then
    some (c - 0x41 + 10)
  else
    none

/--
Whether `c` is a digit of the number system with the given base, which is 2 to 36.
-/
def isDigitInBase (c : Code) (base : Nat) : Bool :=
  c.digitValue?.any (· < base)

def isHexDigit (c : Code) : Bool :=
  c.isDigitInBase 16

/--
A printable ASCII character that is neither a letter nor a digit nor the blank.
-/
def isPunctuation (c : Code) : Bool :=
  (0x21 ≤ c && c ≤ 0x7E) && !c.isAlphanumeric

/--
The characters most languages build their operators from.
-/
def isOperator (c : Code) : Bool :=
  c.isOneOf "%^&*()-+=|\x7b\x7d[]:;<>,/?!.~"

/--
The lower case of an ASCII letter; any other character is left as it is.
-/
def toLower (c : Code) : Code :=
  if c.isUpper then c + 32 else c

end Code

end Highlight
