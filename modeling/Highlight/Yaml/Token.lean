import Highlight.Yaml.Tag

/-!
The parts of a YAML text once indentation is read: signs, scalars, names, tags and directives.
-/

namespace Highlight.Yaml

inductive Token where
  /-- The line that says to which version of YAML a document keeps. -/
  | version (major minor : Nat)
  /-- The line that says what a handle of tags stands for. -/
  | handle (handle : String) (value : List UInt8)
  | documentStart
  | documentEnd
  /-- The beginning of a list or a mapping that is written by indentation, and the end of either. -/
  | listStart
  | mapStart
  | blockEnd
  | openBracket
  | closeBracket
  | openBrace
  | closeBrace
  | comma
  /-- The sign in front of an item of a list. -/
  | item
  /-- What stands in front of a key, be it written or not. -/
  | key
  /-- The sign in front of the value of a key. -/
  | value
  | alias (name : String)
  | anchor (name : String)
  | tag (name : TagName)
  | scalar (plain : Bool) (text : String)
  deriving DecidableEq, Repr

/--
Read the name behind a star or an ampersand.
-/
def name? (s : Source) : Option (String × Source) :=
  let name := s.takeWhile fun g => isWordChar g.char
  let rest := s.drop name.length
  if !name.isEmpty && (startsGap rest || startsWith ("?:,]\x7d%@\u0060".toList.contains ·) rest) then
    some (String.ofList (chars name), rest)
  else
    none

/--
Read one of the two numbers of a version, of at most nine digits.
-/
def versionNumber? (s : Source) : Option (Nat × Source) :=
  let digits := s.takeWhile fun g => g.char.isDigit
  if digits.isEmpty || 9 < digits.length then
    none
  else
    some (digits.foldl (fun value g => value * 10 + (g.char.toNat - 0x30)) 0, s.drop digits.length)

def versionDirective? (s : Source) : Option (Token × Source) := do
  let (major, s) ← versionNumber? (dropBlanks s)
  if startsWith (· == '.') s then
    let (minor, s) ← versionNumber? (s.drop 1)
    some (.version major minor, s)
  else
    none

def handleDirective? (s : Source) : Option (Token × Source) := do
  let s := dropBlanks s
  let handle := handlePart s
  let s := s.drop handle.length
  if (isHandle handle || handle == ['!']) && startsWith isBlank s then
    let (bytes, s) ← tagBytes? true 0 (dropBlanks s)
    if !bytes.isEmpty && startsGap s then
      some (.handle (String.ofList handle) (untilZero bytes), s)
    else
      none
  else
    none

/--
Read a line that starts with a percent sign. There is a line for the version and one for a handle.
-/
def directive? (s : Source) : Option (Token × Source) := do
  let name := (s.drop 1).takeWhile fun g => isWordChar g.char
  let s := s.drop (name.length + 1)
  let found ←
    if !startsGap s then
      none
    else if chars name == ['Y', 'A', 'M', 'L'] then
      versionDirective? s
    else if chars name == ['T', 'A', 'G'] then
      handleDirective? s
    else
      none
  (finishLine? found.2).map fun s => (found.1, s)

end Highlight.Yaml
