import Highlight.Text.Utf8

/-!
The encodings a text can be in, and the decoding of one character.
-/

namespace Highlight

/--
The double-byte code pages.
-/
inductive CodePage where
  | shiftJis
  | gbk
  | korean
  | big5
  | johab
  deriving DecidableEq, Repr

namespace CodePage

/--
Whether `b` starts a character of two bytes.
-/
def isLeadByte (page : CodePage) (b : UInt8) : Bool :=
  match page with
  | .shiftJis => (0x81 ≤ b && b ≤ 0x9F) || (0xE0 ≤ b && b ≤ 0xFC)
  | .gbk | .korean | .big5 => 0x81 ≤ b && b ≤ 0xFE
  | .johab => (0x84 ≤ b && b ≤ 0xD3) || (0xD8 ≤ b && b ≤ 0xDE) || (0xE0 ≤ b && b ≤ 0xF9)

/--
The number a code page is registered under.
-/
def number (page : CodePage) : Nat :=
  match page with
  | .shiftJis => 932
  | .gbk => 936
  | .korean => 949
  | .big5 => 950
  | .johab => 1361

def all : List CodePage :=
  [.shiftJis, .gbk, .korean, .big5, .johab]

def ofNumber? (number : Nat) : Option CodePage :=
  all.find? (·.number == number)

theorem ofNumber?_number (page : CodePage) : ofNumber? page.number = some page := by
  cases page <;> decide

end CodePage

/--
How bytes become characters.
-/
inductive Encoding where
  /-- Each byte is a character. -/
  | singleByte
  /-- UTF-8, where each byte that belongs to no well-formed sequence is a character. -/
  | utf8
  /-- A code page with characters of one and of two bytes. -/
  | doubleByte (page : CodePage)
  deriving DecidableEq, Repr

namespace Encoding

/--
Whether `b` starts a character of two bytes in a double-byte code page.
-/
def isLeadByte (encoding : Encoding) (b : UInt8) : Bool :=
  match encoding with
  | .doubleByte page => page.isLeadByte b
  | _ => false

/--
The character at `pos` and its width in bytes. The width is never zero; past the end of the text the
character is 0.
-/
def decodeAt (encoding : Encoding) (text : Array UInt8) (pos : Nat) : Code × Nat :=
  match text[pos]? with
  | none => (0, 1)
  | some b =>
    match encoding with
    | .singleByte => (b.toNat, 1)
    | .utf8 => (Utf8.decodeAt? text pos).getD (b.toNat, 1)
    | .doubleByte page =>
      match text[pos + 1]? with
      | some trail => if page.isLeadByte b then (b.toNat * 256 + trail.toNat, 2) else (b.toNat, 1)
      | none => (b.toNat, 1)

theorem decodeAt_width_pos (encoding : Encoding) (text : Array UInt8) (pos : Nat) :
    0 < (encoding.decodeAt text pos).2 := by
  unfold decodeAt
  split
  · simp
  · split
    · simp
    · unfold Utf8.decodeAt?
      cases text[pos]? with
      | none => simp
      | some b =>
        cases h : Utf8.Lead.ofByte? b with
        | none => simp [h]
        | some lead =>
          cases h' : Utf8.continue? text (pos + 1) lead.bits lead.following with
          | none => simp [h, h']
          | some value => simp only [h, h', Option.bind_eq_bind, Option.bind_some]; split <;> simp
    · split
      · split <;> simp
      · simp

end Encoding

end Highlight
