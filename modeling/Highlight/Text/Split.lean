/-!
Cutting a text: at a character, and behind its first byte.
-/

namespace Highlight

/--
The parts of a text between the places where `separator` stands.
-/
def splitOn (separator : Char) (text : List Char) : List (List Char) :=
  match text with
  | [] => [[]]
  | c :: rest =>
    if c == separator then
      [] :: splitOn separator rest
    else
      match splitOn separator rest with
      | [] => [[c]]
      | part :: parts => (c :: part) :: parts

/--
A text without its first byte; nothing is left of a text whose first character is longer than that.
-/
def withoutFirstByte (text : String) : String :=
  match text.toList with
  | [] => ""
  | c :: rest => if c.toNat < 0x80 then String.ofList rest else ""

end Highlight
