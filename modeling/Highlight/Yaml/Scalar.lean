import Highlight.Text.Code
import Highlight.Yaml.Tag

/-!
What scalars mean: nothing, a truth value, a number or a text.
-/

namespace Highlight.Yaml

inductive Scalar where
  | null
  | bool (value : Bool)
  | int (value : Int)
  | float
  | text (value : String)
  deriving DecidableEq, Repr

namespace Scalar

def isNull (text : String) : Bool :=
  text.isEmpty || ["~", "null", "Null", "NULL"].contains text

def bool? (text : String) : Option Bool :=
  if ["true", "True", "TRUE"].contains text then
    some true
  else if ["false", "False", "FALSE"].contains text then
    some false
  else
    none

/--
The number that digits of the given base stand for, if there are any and no other characters.
-/
def digits? (base : Nat) (digits : List Char) : Option Nat :=
  if digits.isEmpty then
    none
  else
    digits.foldlM (fun value c => do
      let digit ← Code.digitValue? c.toNat
      if digit < base then some (value * base + digit) else none) 0

/--
A number with one of the marks for another base than ten. There are 128 bits for it, so that a larger
one is no number.
-/
def marked? (text : List Char) : Option Nat :=
  match text with
  | '0' :: 'x' :: rest => digits? 16 rest
  | '0' :: 'o' :: rest => digits? 8 rest
  | '0' :: 'b' :: rest => digits? 2 rest
  | _ => none

/--
A zero before other digits is no way to write a number.
-/
def hasLeadingZero (text : List Char) : Bool :=
  match text with
  | '0' :: c :: rest => (c :: rest).all Char.isDigit
  | _ => false

def int? (text : List Char) : Option Int :=
  let natural? (bound : Nat) (text : List Char) : Option Nat :=
    match marked? text with
    | some value => if value ≤ bound then some value else none
    | none => if hasLeadingZero text then none else digits? 10 text
  match text with
  | '-' :: rest => (natural? (1 <<< 127) rest).map fun value => -(value : Int)
  | '+' :: rest => (natural? ((1 <<< 128) - 1) rest).map Int.ofNat
  | _ => (natural? ((1 <<< 128) - 1) text).map Int.ofNat

/--
The least number that double precision rounds to infinity.
-/
def overflow : Nat :=
  (1 <<< 1024) - (1 <<< 970)

/--
Whether `mantissa` times ten to the power of `exponent` is less than `overflow`.
-/
def isFinite (mantissa : Nat) (exponent : Int) : Bool :=
  let size := (Nat.toDigits 10 mantissa).length + exponent
  if mantissa == 0 || size < 309 then
    true
  else if 310 < size then
    false
  else if 0 ≤ exponent then
    mantissa * Nat.pow 10 exponent.toNat < overflow
  else
    mantissa < overflow * Nat.pow 10 (-exponent).toNat

/--
The exponent behind the digits of a number; 0 if there is none.
-/
def exponent? (text : List Char) : Option Int :=
  match text with
  | [] => some 0
  | c :: rest =>
    if c == 'e' || c == 'E' then
      match rest with
      | '-' :: digits => (digits? 10 digits).map fun value => -(value : Int)
      | '+' :: digits => (digits? 10 digits).map Int.ofNat
      | digits => (digits? 10 digits).map Int.ofNat
    else
      none

/--
Whether a text without a sign is a decimal number that double precision can hold.
-/
def isDecimal (text : List Char) : Bool :=
  let whole := text.takeWhile Char.isDigit
  let (fraction, rest) :=
    match text.dropWhile Char.isDigit with
    | '.' :: rest => (rest.takeWhile Char.isDigit, rest.dropWhile Char.isDigit)
    | rest => ([], rest)
  match digits? 10 (whole ++ fraction), exponent? rest with
  | some mantissa, some exponent => isFinite mantissa (exponent - fraction.length)
  | _, _ => false

def isFloat (text : List Char) : Bool :=
  let infinity := [".inf", ".Inf", ".INF"]
  let unsigned := match text with
    | '-' :: rest => rest
    | '+' :: rest => rest
    | rest => rest
  infinity.contains (String.ofList unsigned) ||
    [".nan", ".NaN", ".NAN"].contains (String.ofList text) ||
    (!hasLeadingZero unsigned && isDecimal unsigned)

/--
What a text means that is written plainly.
-/
def ofPlain (text : String) : Scalar :=
  if isNull text then
    .null
  else
    match bool? text with
    | some value => .bool value
    | none =>
      match int? text.toList with
      | some value => .int value
      | none => if isFloat text.toList then .float else .text text

/--
What a scalar means. A tag of YAML itself says what a text has to be. A local tag has no meaning here,
and with any other one, a scalar is a text.
-/
def ofScalar? (tag? : Option Tag) (plain : Bool) (text : String) : Option Scalar :=
  match tag? with
  | none => some (if plain then ofPlain text else .text text)
  | some tag =>
    if tag.isLocal then
      none
    else if tag == .core "null" then
      if isNull text && !text.isEmpty then some .null else none
    else if tag == .core "bool" then
      (bool? text).map .bool
    else if tag == .core "int" then
      (int? text.toList).map .int
    else if tag == .core "float" then
      if isFloat text.toList then some .float else none
    else
      some (if plain && tag.startsWithMark then ofPlain text else .text text)

end Scalar

end Highlight.Yaml
