import Highlight.Text.Code

/-!
UTF-8 in two readings.

`Utf8.decodeAt?` reads one well-formed sequence at a position and is used where malformed bytes have
to stay visible as bytes. `Utf8.decodeLossy` reads a whole byte list as text, with one replacement
character for each maximal part that no well-formed sequence can contain. `Utf8.encode` writes a text
as bytes.
-/

namespace Highlight.Utf8

/--
What a lead byte of a longer sequence says: how many bytes follow, the bits it contributes itself,
and the least value that needs a sequence of this length.
-/
structure Lead where
  following : Nat
  bits : Nat
  least : Nat
  deriving DecidableEq, Repr

def Lead.ofByte? (b : UInt8) : Option Lead :=
  if 0xC2 ≤ b && b ≤ 0xDF then
    some ⟨1, b.toNat - 0xC0, 0x80⟩
  else if 0xE0 ≤ b && b ≤ 0xEF then
    some ⟨2, b.toNat - 0xE0, 0x800⟩
  else if 0xF0 ≤ b && b ≤ 0xF4 then
    some ⟨3, b.toNat - 0xF0, 0x10000⟩
  else
    none

def isContinuation (b : UInt8) : Bool :=
  0x80 ≤ b && b ≤ 0xBF

/--
Append the six bits of each of the next `count` bytes to `value`; `none` if one of them is missing
or no continuation byte.
-/
def continue? (text : Array UInt8) (pos : Nat) (value : Nat) (count : Nat) : Option Nat :=
  match count with
  | 0 => some value
  | count + 1 =>
    match text[pos]? with
    | some b =>
      if isContinuation b then continue? text (pos + 1) (value * 64 + (b.toNat - 0x80)) count else none
    | none => none

def isSurrogate (value : Nat) : Bool :=
  0xD800 ≤ value && value ≤ 0xDFFF

/--
The scalar value and the width of the sequence of two or more bytes that stands at `pos`, if it is
well formed: complete, no longer than needed, no surrogate and not beyond U+10FFFF.
-/
def decodeAt? (text : Array UInt8) (pos : Nat) : Option (Nat × Nat) := do
  let lead ← Lead.ofByte? (← text[pos]?)
  let value ← continue? text (pos + 1) lead.bits lead.following
  if value < lead.least || value > 0x10FFFF || isSurrogate value then
    none
  else
    some (value, lead.following + 1)

/--
The bytes that may follow the lead byte `b` directly, as the first and the last of them.
-/
def secondByteRange (b : UInt8) : UInt8 × UInt8 :=
  if b == 0xE0 then
    (0xA0, 0xBF)
  else if b == 0xED then
    (0x80, 0x9F)
  else if b == 0xF0 then
    (0x90, 0xBF)
  else if b == 0xF4 then
    (0x80, 0x8F)
  else
    (0x80, 0xBF)

def replacementCharacter : Char :=
  '\ufffd'

/--
The longest beginning of `rest` that can follow the lead byte `b` in a sequence with `following`
more bytes.
-/
def tail (b : UInt8) (following : Nat) (rest : List UInt8) : List UInt8 :=
  match rest with
  | [] => []
  | second :: rest =>
    let range := secondByteRange b
    if range.1 ≤ second && second ≤ range.2 then
      second :: (rest.take (following - 1)).takeWhile isContinuation
    else
      []

/--
The first character of the bytes `b :: rest`, and how many bytes of `rest` it takes.
-/
def nextLossy (b : UInt8) (rest : List UInt8) : Char × Nat :=
  if b < 0x80 then
    (Char.ofNat b.toNat, 0)
  else
    match Lead.ofByte? b with
    | none => (replacementCharacter, 0)
    | some lead =>
      let tail := tail b lead.following rest
      if tail.length == lead.following then
        (Char.ofNat (tail.foldl (fun value b => value * 64 + (b.toNat - 0x80)) lead.bits), tail.length)
      else
        (replacementCharacter, tail.length)

/--
The characters of a byte list.
-/
def charsLossy (bytes : List UInt8) : List Char :=
  match bytes with
  | [] => []
  | b :: rest =>
    let next := nextLossy b rest
    next.1 :: charsLossy (rest.drop next.2)
termination_by bytes.length
decreasing_by
  simp only [List.length_drop, List.length_cons]
  omega

/--
The text of a byte array, in which each maximal malformed part is one U+FFFD.
-/
def decodeLossy (bytes : Array UInt8) : String :=
  String.ofList (charsLossy bytes.toList)

/--
The bytes of a text.
-/
def encode (text : String) : List UInt8 :=
  text.toList.flatMap String.utf8EncodeChar

end Highlight.Utf8
