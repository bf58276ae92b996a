import Highlight.Proofs.Cursor.Walk
import Highlight.Proofs.Document.Word

/-!
What a cursor compares with a text. It looks at its own character and the next one first, which are decoded, and at bytes behind
them. An ASCII character is decoded from its own byte alone, so it all comes to the bytes from the cursor on.
-/

namespace Highlight

/--
A change of characters that changes the bytes of a text in the same way, and makes ASCII characters of no others.
-/
structure FoldsBytes (fold : Nat → Nat) (f : UInt8 → UInt8) : Prop where
  toNat : ∀ b, (f b).toNat = fold b.toNat
  ascii : ∀ c, 0 < fold c ∧ fold c < 0x80 → 0 < c ∧ c < 0x80

/--
The byte of a letter in upper case as that of the letter in lower case.
-/
def lowerByte (b : UInt8) : UInt8 :=
  if 0x41 ≤ b && b ≤ 0x5A then b + 0x20 else b

theorem foldsBytes_id : FoldsBytes id id :=
  ⟨fun _ => rfl, fun _ => id⟩

theorem foldsBytes_toLower : FoldsBytes Code.toLower lowerByte where
  toNat b := by
    simp only [lowerByte, Code.toLower, Code.isUpper, Bool.and_eq_true, decide_eq_true_eq, UInt8.le_iff_toNat_le,
      UInt8.reduceToNat]
    split
    . simp only [UInt8.toNat_add, UInt8.reduceToNat]
      omega
    . rfl
  ascii c hc := by
    unfold Code.toLower at hc
    split at hc
    . next hupper =>
      rw [Code.isUpper, Bool.and_eq_true, decide_eq_true_eq, decide_eq_true_eq] at hupper
      have hlow : 0x41 ≤ c := hupper.1
      have hhigh : c ≤ 0x5A := hupper.2
      omega
    . exact hc

namespace FoldsBytes

variable {fold : Nat → Nat} {f : UInt8 → UInt8} {doc : Document} {b : UInt8} {bytes : List UInt8} {pos : Nat}

theorem startsWith_cons_iff (f : UInt8 → UInt8) (doc : Document) (pos : Nat) (b : UInt8) (bytes : List UInt8) :
    b :: bytes <+: (doc.text.toList.drop pos).map f
      ↔ (∃ x, doc.byteAt? pos = some x ∧ f x = b) ∧ bytes <+: (doc.text.toList.drop (pos + 1)).map f := by
  cases hx : doc.byteAt? pos with
  | none =>
    rw [List.drop_eq_nil_of_le (Array.getElem?_eq_none_iff.mp hx), List.map_nil, List.prefix_nil]
    simp
  | some x =>
    rw [Utf8.drop_eq_cons hx, List.map_cons, List.cons_prefix_cons]
    simp only [Option.some.injEq, exists_eq_left', eq_comm]

section Byte

variable (h : FoldsBytes fold f) (hb : 0 < b.toNat ∧ b.toNat < 0x80)
include h hb

/--
A byte is found by its number. The end of the text is no ASCII character.
-/
theorem byteAt_iff : fold (doc.byteAt pos 0).toNat = b.toNat ↔ ∃ x, doc.byteAt? pos = some x ∧ f x = b := by
  rw [Document.byteAt, ← Document.byteAt?]
  cases hx : doc.byteAt? pos with
  | none =>
    constructor
    . intro heq
      exact absurd (h.ascii 0 (heq.symm ▸ hb)).1 (Nat.lt_irrefl 0)
    . rintro ⟨x, hsome, _⟩
      cases hsome
  | some x =>
    rw [Option.getD_some, ← h.toNat, UInt8.toNat_inj]
    simp only [Option.some.injEq, exists_eq_left']

/--
A character is found where its byte stands.
-/
theorem decodeAt_iff : fold (doc.decodeAt pos).1 = b.toNat ↔ ∃ x, doc.byteAt? pos = some x ∧ f x = b := by
  unfold Document.decodeAt
  constructor
  . intro heq
    obtain ⟨hpos, hlt⟩ := h.ascii _ (heq.symm ▸ hb)
    obtain ⟨x, hx, hread⟩ := doc.encoding.ascii_of_decodeAt hlt (Nat.pos_iff_ne_zero.mp hpos)
    refine ⟨x, hx, ?_⟩
    rwa [hread, ← h.toNat, UInt8.toNat_inj] at heq
  . rintro ⟨x, hx, rfl⟩
    rw [h.toNat] at hb ⊢
    rw [doc.encoding.decodeAt_of_ascii hx (h.ascii _ hb).2]

theorem width_decodeAt (hx : ∃ x, doc.byteAt? pos = some x ∧ f x = b) : (doc.decodeAt pos).2 = 1 := by
  obtain ⟨x, hx, rfl⟩ := hx
  rw [h.toNat] at hb
  rw [Document.decodeAt, doc.encoding.decodeAt_of_ascii hx (h.ascii _ hb).2]

end Byte

section Text

variable (h : FoldsBytes fold f) (hbytes : ∀ b ∈ bytes, 0 < b.toNat ∧ b.toNat < 0x80)
include h hbytes

theorem bytesAgree_iff : Cursor.bytesAgree doc fold pos bytes = true ↔ bytes <+: (doc.text.toList.drop pos).map f := by
  induction bytes generalizing pos with
  | nil => exact ⟨fun _ => List.nil_prefix, fun _ => rfl⟩
  | cons b bytes ih =>
    obtain ⟨hb, hrest⟩ := List.forall_mem_cons.mp hbytes
    rw [Cursor.bytesAgree, Bool.and_eq_true, beq_iff_eq, h.byteAt_iff hb, ih hrest, startsWith_cons_iff]

/--
A cursor sees a text of ASCII characters where its bytes stand.
-/
theorem matchesBy_iff {c : Cursor} (hc : c.Settled) {s : String} (hs : Utf8.encode s = bytes) :
    c.matchesBy fold s = true ↔ bytes <+: (c.doc.text.toList.drop c.pos).map f := by
  unfold Cursor.matchesBy
  rw [hs]
  match bytes, hbytes with
  | [], _ => exact ⟨fun _ => List.nil_prefix, fun _ => rfl⟩
  | [first], hbytes =>
    obtain ⟨hfirst, _⟩ := List.forall_mem_cons.mp hbytes
    dsimp only
    rw [beq_iff_eq, hc.cur_eq, h.decodeAt_iff hfirst, startsWith_cons_iff]
    exact ⟨fun hx => ⟨hx, List.nil_prefix⟩, And.left⟩
  | first :: second :: rest, hbytes =>
    obtain ⟨hfirst, hbytes⟩ := List.forall_mem_cons.mp hbytes
    obtain ⟨hsecond, hrest⟩ := List.forall_mem_cons.mp hbytes
    dsimp only
    rw [Bool.and_eq_true, Bool.and_eq_true, beq_iff_eq, beq_iff_eq, hc.cur_eq, h.decodeAt_iff hfirst, h.bytesAgree_iff hrest,
      startsWith_cons_iff, startsWith_cons_iff, and_assoc]
    apply and_congr_right
    intro hx
    rw [hc.next_eq, hc.width_eq, h.width_decodeAt hfirst hx, h.decodeAt_iff hsecond]

end Text

end FoldsBytes

namespace Cursor

variable {doc : Document} {span : Span} {n : Nat}

/--
A cursor on its way through the lines of a span sees a text of ASCII characters where the bytes of this text stand, in either
of its two comparisons, whatever the encoding is.
-/
theorem seesText_iff_bytes (doc : Document) (hdoc : doc.WellFormed) (span : Span) (n : Nat)
    (hmore : ((start doc span).forwardBy n).more = true) (s : String) (hs : ∀ x ∈ s.toList, 0 < x.toNat ∧ x.toNat < 0x80) :
    let c := (start doc span).forwardBy n
    (c.seesText s = true ↔ doc.matchesAt c.pos s = true)
      ∧ (c.seesTextIgnoringCase s = true ↔ Utf8.encode s <+: (doc.text.toList.drop c.pos).map lowerByte) := by
  intro c
  have hc : c.Settled := (settled_start doc hdoc span).forwardBy_of_more hmore
  have hsame : c.doc = doc := doc_forwardBy _ n
  have hbytes : ∀ b ∈ Utf8.encode s, 0 < b.toNat ∧ b.toNat < 0x80 := by
    have hascii : IsAscii s.toList := fun x hx => (hs x hx).2
    intro b hb
    rw [hascii.encode_eq] at hb
    obtain ⟨x, hx, rfl⟩ := List.mem_map.mp hb
    rw [IsAscii.toNat_toUInt8 (hs x hx).2]
    exact hs x hx
  have htext := foldsBytes_id.matchesBy_iff hbytes hc rfl
  have hlower := foldsBytes_toLower.matchesBy_iff hbytes hc rfl
  rw [hsame, List.map_id, ← Document.holdsAt_iff] at htext
  rw [hsame] at hlower
  exact ⟨htext, hlower⟩

/--
In code page 932 a letter that is the second byte of a character is no part of the text that is compared.
-/
theorem seesText_iff_bytes_lead_byte :
    let doc := (Document.ofText #[0x81, 0x41, 0x4F, 0x72]).setEncoding (.doubleByte .shiftJis)
    let c := (start doc ⟨0, 4, 0⟩).forwardBy 1
    c.pos = 2 ∧ c.seesTextIgnoringCase "or" = true ∧ c.seesText "or" = false := by
  intro doc c
  have hdoc : doc.WellFormed := Document.wellFormed_fresh #[0x81, 0x41, 0x4F, 0x72] (.doubleByte .shiftJis) .empty
  have hpos : c.pos = 2 := by decide +kernel
  have hascii : ∀ x ∈ "or".toList, 0 < x.toNat ∧ x.toNat < 0x80 := by
    intro x hx
    rw [show "or".toList = ['o', 'r'] from rfl, List.mem_cons, List.mem_singleton] at hx
    rcases hx with rfl | rfl
    . decide
    . decide
  obtain ⟨htext, hlower⟩ := seesText_iff_bytes doc hdoc ⟨0, 4, 0⟩ 1 (by decide +kernel) "or" hascii
  refine ⟨hpos, hlower.mpr (by decide +kernel), ?_⟩
  rw [Bool.eq_false_iff, ne_eq, htext]
  decide +kernel

end Cursor

end Highlight
