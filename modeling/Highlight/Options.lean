import Highlight.Dict
import Highlight.Text.Blank
import Highlight.Text.Split

/-!
The options that steer colouring and folding: texts under keys, read as integers where a number is
wanted.
-/

namespace Highlight

/--
Option values under their keys.
-/
abbrev Options := Dict String

namespace Options

/--
The key and the value on a line: what stands before and after its first equals sign, without the
blanks around it. A line that starts with a number sign is a comment.
-/
def entry? (line : List Char) : Option (String × String) :=
  let line := Blank.trim line
  if line.head? == some '#' then
    none
  else
    match line.dropWhile (· != '=') with
    | [] => none
    | _ :: value =>
      some (String.ofList (Blank.trim (line.takeWhile (· != '='))), String.ofList (Blank.trim value))

/--
Read options from a text with one of them on a line. Lines that give none are passed over.
-/
def parse (text : String) : Options :=
  Dict.ofList ((splitOn '\n' text.toList).filterMap entry?)

def digitsValue (digits : List Char) : Int32 :=
  digits.foldl (fun value c => value * 10 + Int32.ofNat (c.toNat - 0x30)) 0

/--
The number a text begins with: blanks, a sign or none, and decimal digits. It is reduced to 32 bits,
and 0 if there are no digits.
-/
def leadingInt (text : String) : Int32 :=
  match Blank.trimLeft text.toList with
  | '-' :: digits => -digitsValue (digits.takeWhile Char.isDigit)
  | '+' :: digits => digitsValue (digits.takeWhile Char.isDigit)
  | digits => digitsValue (digits.takeWhile Char.isDigit)

/--
The integer a value stands for; `fallback` if the value is missing or empty.
-/
def readInt (value : Option String) (fallback : Int32) : Int32 :=
  match value with
  | none => fallback
  | some value => if value.isEmpty then fallback else leadingInt value

def getInt (options : Options) (key : String) (fallback : Int32) : Int32 :=
  readInt (options.get? key) fallback

/--
An option read as a switch: any integer but 0 means on.
-/
def getFlag (options : Options) (key : String) (fallback : Bool) : Bool :=
  options.getInt key (if fallback then 1 else 0) != 0

end Options

end Highlight
