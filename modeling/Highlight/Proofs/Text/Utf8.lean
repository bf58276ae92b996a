import Highlight.Proofs.Document.Word

/-!
UTF-8 as the encodings of characters: what is read as a sequence of two or more bytes is the encoding of the character with the
value that is read, and all other bytes are characters of their own. So the characters of an encoded text are read one after the
other, and the reading of any bytes ends where they end.
-/

namespace Highlight

namespace Utf8

variable {text : Array UInt8} {lead : Lead} {b : UInt8} {seq : List UInt8} {x : Char} {pos code width : Nat}

/--
The value of a lead byte and the bytes that follow it.
-/
def Lead.value (lead : Lead) (seq : List UInt8) : Nat :=
  seq.foldl (fun value b => value * 64 + (b.toNat - 0x80)) lead.bits

/--
Bytes that complete a lead byte: as many continuation bytes as it asks for, with the value of a character that needs them all.
-/
structure Lead.CompletedBy (lead : Lead) (seq : List UInt8) : Prop where
  length : seq.length = lead.following
  continuation : ∀ b ∈ seq, isContinuation b = true
  least_le : lead.least ≤ lead.value seq
  valid : (lead.value seq).isValidChar

theorem continue?_eq_some_iff {count start result : Nat} : continue? text pos start count = some result
    ↔ ∃ seq, seq.length = count ∧ seq <+: text.toList.drop pos ∧ (∀ b ∈ seq, isContinuation b = true)
      ∧ seq.foldl (fun value b => value * 64 + (b.toNat - 0x80)) start = result := by
  induction count generalizing pos start with
  | zero =>
    rw [continue?, Option.some.injEq]
    constructor
    . exact fun h => ⟨[], rfl, List.nil_prefix, fun b hb => absurd hb List.not_mem_nil, h⟩
    . rintro ⟨seq, hlength, _, _, hvalue⟩
      rwa [List.eq_nil_of_length_eq_zero hlength] at hvalue
  | succ count ih =>
    rw [continue?]
    cases hb : text[pos]? with
    | none =>
      refine ⟨nofun, ?_⟩
      rintro ⟨seq, hlength, hseq, _⟩
      have hsize := hseq.length_le
      rw [hlength, List.length_drop, Array.length_toList] at hsize
      have := Array.getElem?_eq_none_iff.mp hb
      omega
    | some b =>
      rw [drop_eq_cons hb]
      dsimp only
      constructor
      . intro h
        split at h
        . next hcontinuation =>
          obtain ⟨seq, hlength, hseq, hall, hvalue⟩ := ih.mp h
          refine ⟨b :: seq, congrArg (· + 1) hlength, List.cons_prefix_cons.mpr ⟨rfl, hseq⟩,
            List.forall_mem_cons.mpr ⟨hcontinuation, hall⟩, ?_⟩
          rw [List.foldl_cons, hvalue]
        . cases h
      . rintro ⟨seq, hlength, hseq, hall, hvalue⟩
        obtain ⟨first, seq, rfl⟩ := List.exists_cons_of_length_eq_add_one hlength
        obtain ⟨rfl, htail⟩ := List.cons_prefix_cons.mp hseq
        obtain ⟨hfirst, hall⟩ := List.forall_mem_cons.mp hall
        rw [List.foldl_cons] at hvalue
        rw [if_pos hfirst, ih]
        exact ⟨seq, Nat.succ.inj hlength, htail, hall, hvalue⟩

theorem isValidChar_iff {n : Nat} : n.isValidChar ↔ ¬ n > 0x10FFFF ∧ isSurrogate n = false := by
  rw [isSurrogate, Bool.and_eq_false_iff, decide_eq_false_iff_not, decide_eq_false_iff_not]
  unfold Nat.isValidChar
  omega

/--
A sequence is read where a lead byte stands with bytes that complete it.
-/
theorem decodeAt?_eq_some_iff : decodeAt? text pos = some (code, width)
    ↔ ∃ b lead seq, Lead.ofByte? b = some lead ∧ lead.CompletedBy seq ∧ b :: seq <+: text.toList.drop pos
      ∧ lead.value seq = code ∧ lead.following + 1 = width := by
  unfold decodeAt?
  simp only [Option.bind_eq_bind, Option.bind_eq_some_iff]
  constructor
  . rintro ⟨b, hb, lead, hlead, value, hvalue, h⟩
    obtain ⟨seq, hlength, hseq, hall, rfl⟩ := continue?_eq_some_iff.mp hvalue
    split at h
    . cases h
    . next hwell =>
      simp only [Bool.or_eq_true, decide_eq_true_eq, not_or, Nat.not_lt, Bool.not_eq_true] at hwell
      obtain ⟨⟨hleast, hlast⟩, hsurrogate⟩ := hwell
      rw [Option.some.injEq, Prod.mk.injEq] at h
      refine ⟨b, lead, seq, hlead, ⟨hlength, hall, hleast, isValidChar_iff.mpr ⟨Nat.not_lt.mpr hlast, hsurrogate⟩⟩, ?_, h⟩
      rw [drop_eq_cons hb]
      exact List.cons_prefix_cons.mpr ⟨rfl, hseq⟩
  . rintro ⟨b, lead, seq, hlead, hseq, hstarts, rfl, rfl⟩
    have hb := getElem?_of_startsWith hstarts
    rw [drop_eq_cons hb, List.cons_prefix_cons] at hstarts
    refine ⟨b, hb, lead, hlead, lead.value seq, ?_, ?_⟩
    . exact continue?_eq_some_iff.mpr ⟨seq, hseq.length, hstarts.2, hseq.continuation, rfl⟩
    . obtain ⟨hlast, hsurrogate⟩ := isValidChar_iff.mp hseq.valid
      rw [if_neg]
      simp only [Bool.or_eq_true, decide_eq_true_eq, not_or, Bool.not_eq_true]
      exact ⟨⟨Nat.not_lt.mpr hseq.least_le, hlast⟩, hsurrogate⟩

theorem eq_of_map_toNat {bytes bytes' : List UInt8} (h : bytes.map UInt8.toNat = bytes'.map UInt8.toNat) : bytes = bytes' :=
  List.map_inj_right (fun _ _ => UInt8.toNat_inj.mp) |>.mp h

/--
A lead byte and the bytes that complete it encode the character with their value.
-/
theorem utf8EncodeChar_of_completedBy (hlead : Lead.ofByte? b = some lead) (hseq : lead.CompletedBy seq) :
    ∃ x : Char, x.toNat = lead.value seq ∧ String.utf8EncodeChar x = b :: seq := by
  obtain ⟨hlength, hall, hleast, hvalid⟩ := hseq
  have hx : (Char.ofNat (lead.value seq)).toNat = lead.value seq := by
    rw [Char.ofNat, dif_pos hvalid]
    rfl
  refine ⟨Char.ofNat (lead.value seq), hx, eq_of_map_toNat ?_⟩
  generalize Char.ofNat (lead.value seq) = x at hx
  rcases ofByte?_eq_some_iff.mp hlead with ⟨hb, rfl⟩ | ⟨hb, rfl⟩ | ⟨hb, rfl⟩
  . obtain ⟨second, rfl⟩ := List.length_eq_one_iff.mp hlength
    have hsecond := isContinuation_iff.mp (hall second List.mem_cons_self)
    have hvalue : x.toNat = (b.toNat - 0xC0) * 64 + (second.toNat - 0x80) := hx
    rw [utf8EncodeChar_of_two hvalue (by omega) (by omega)]
    simp only [List.map_cons, List.map_nil, List.cons.injEq, and_true]
    omega
  . obtain ⟨second, third, rfl⟩ := length_eq_two hlength
    have hsecond := isContinuation_iff.mp (hall second (by simp))
    have hthird := isContinuation_iff.mp (hall third (by simp))
    have hvalue : x.toNat = ((b.toNat - 0xE0) * 64 + (second.toNat - 0x80)) * 64 + (third.toNat - 0x80) := hx
    have hleast : 0x800 ≤ ((b.toNat - 0xE0) * 64 + (second.toNat - 0x80)) * 64 + (third.toNat - 0x80) := hleast
    rw [utf8EncodeChar_of_three hvalue hleast (by omega)]
    simp only [List.map_cons, List.map_nil, List.cons.injEq, and_true]
    omega
  . obtain ⟨second, third, fourth, rfl⟩ := length_eq_three hlength
    have hsecond := isContinuation_iff.mp (hall second (by simp))
    have hthird := isContinuation_iff.mp (hall third (by simp))
    have hfourth := isContinuation_iff.mp (hall fourth (by simp))
    have hvalue : x.toNat = (((b.toNat - 0xF0) * 64 + (second.toNat - 0x80)) * 64 + (third.toNat - 0x80)) * 64
        + (fourth.toNat - 0x80) := hx
    have hleast : 0x10000 ≤ (((b.toNat - 0xF0) * 64 + (second.toNat - 0x80)) * 64 + (third.toNat - 0x80)) * 64
        + (fourth.toNat - 0x80) := hleast
    rw [utf8EncodeChar_of_four hvalue hleast]
    simp only [List.map_cons, List.map_nil, List.cons.injEq, and_true]
    omega

theorem completedBy_of_value (hlength : seq.length = lead.following) (hall : ∀ b ∈ seq, 0x80 ≤ b.toNat ∧ b.toNat ≤ 0xBF)
    (hvalue : lead.value seq = x.toNat) (hleast : lead.least ≤ x.toNat) : lead.CompletedBy seq where
  length := hlength
  continuation b hb := isContinuation_iff.mpr (hall b hb)
  least_le := hvalue ▸ hleast
  valid := hvalue ▸ x.valid

/--
A character that is not ASCII is encoded by a lead byte and bytes that complete it.
-/
theorem exists_completedBy (hx : 0x80 ≤ x.toNat) : ∃ b lead seq, String.utf8EncodeChar x = b :: seq
    ∧ Lead.ofByte? b = some lead ∧ lead.CompletedBy seq ∧ lead.value seq = x.toNat := by
  have hvalid : x.toNat < 0xD800 ∨ 0xDFFF < x.toNat ∧ x.toNat < 0x110000 := x.valid
  rcases Nat.lt_or_ge x.toNat 0x800 with htwo | hlarge
  . obtain ⟨b, seq, heq, hb, hseq⟩ := List.map_eq_cons_iff.mp (utf8EncodeChar_of_two rfl hx htwo)
    obtain ⟨second, rfl, hsecond⟩ := List.map_eq_singleton_iff.mp hseq
    have hvalue : (b.toNat - 0xC0) * 64 + (second.toNat - 0x80) = x.toNat := by omega
    have hall : ∀ y ∈ [second], 0x80 ≤ y.toNat ∧ y.toNat ≤ 0xBF := by
      simp only [List.forall_mem_cons, List.not_mem_nil, false_implies, implies_true, and_true]
      omega
    exact ⟨b, _, _, heq, ofByte?_eq_some_iff.mpr (.inl ⟨by omega, rfl⟩), completedBy_of_value rfl hall hvalue hx, hvalue⟩
  . rcases Nat.lt_or_ge x.toNat 0x10000 with hthree | hfour
    . obtain ⟨b, seq, heq, hb, hseq⟩ := List.map_eq_cons_iff.mp (utf8EncodeChar_of_three rfl hlarge hthree)
      obtain ⟨second, seq, rfl, hsecond, hseq⟩ := List.map_eq_cons_iff.mp hseq
      obtain ⟨third, rfl, hthird⟩ := List.map_eq_singleton_iff.mp hseq
      have hvalue : ((b.toNat - 0xE0) * 64 + (second.toNat - 0x80)) * 64 + (third.toNat - 0x80) = x.toNat := by omega
      have hall : ∀ y ∈ [second, third], 0x80 ≤ y.toNat ∧ y.toNat ≤ 0xBF := by
        simp only [List.forall_mem_cons, List.not_mem_nil, false_implies, implies_true, and_true]
        omega
      exact ⟨b, _, _, heq, ofByte?_eq_some_iff.mpr (.inr (.inl ⟨by omega, rfl⟩)), completedBy_of_value rfl hall hvalue hlarge,
        hvalue⟩
    . obtain ⟨b, seq, heq, hb, hseq⟩ := List.map_eq_cons_iff.mp (utf8EncodeChar_of_four rfl hfour)
      obtain ⟨second, seq, rfl, hsecond, hseq⟩ := List.map_eq_cons_iff.mp hseq
      obtain ⟨third, seq, rfl, hthird, hseq⟩ := List.map_eq_cons_iff.mp hseq
      obtain ⟨fourth, rfl, hfourth⟩ := List.map_eq_singleton_iff.mp hseq
      have hvalue : (((b.toNat - 0xF0) * 64 + (second.toNat - 0x80)) * 64 + (third.toNat - 0x80)) * 64 + (fourth.toNat - 0x80)
          = x.toNat := by omega
      have hall : ∀ y ∈ [second, third, fourth], 0x80 ≤ y.toNat ∧ y.toNat ≤ 0xBF := by
        simp only [List.forall_mem_cons, List.not_mem_nil, false_implies, implies_true, and_true]
        omega
      exact ⟨b, _, _, heq, ofByte?_eq_some_iff.mpr (.inr (.inr ⟨by omega, rfl⟩)), completedBy_of_value rfl hall hvalue hfour,
        hvalue⟩

/--
What is read as a sequence of two or more bytes is the encoding of a character that is not ASCII.
-/
theorem decodeAt?_iff : decodeAt? text pos = some (code, width)
    ↔ ∃ x : Char, x.toNat = code ∧ x.utf8Size = width ∧ 1 < width ∧ String.utf8EncodeChar x <+: text.toList.drop pos := by
  rw [decodeAt?_eq_some_iff]
  constructor
  . rintro ⟨b, lead, seq, hlead, hseq, hstarts, rfl, rfl⟩
    obtain ⟨x, hx, hencode⟩ := utf8EncodeChar_of_completedBy hlead hseq
    refine ⟨x, hx, ?_, Nat.succ_lt_succ (following_pos_of_ofByte? hlead), hencode ▸ hstarts⟩
    rw [← String.length_utf8EncodeChar, hencode, List.length_cons, hseq.length]
  . rintro ⟨x, rfl, rfl, hwidth, hstarts⟩
    have hlarge : 0x80 ≤ x.toNat := by
      apply Nat.le_of_not_lt
      intro hascii
      rw [← String.length_utf8EncodeChar, IsAscii.utf8EncodeChar_eq hascii] at hwidth
      exact absurd hwidth (Nat.lt_irrefl 1)
    obtain ⟨b, lead, seq, hencode, hlead, hseq, hvalue⟩ := exists_completedBy hlarge
    refine ⟨b, lead, seq, hlead, hseq, hencode ▸ hstarts, hvalue, ?_⟩
    rw [← String.length_utf8EncodeChar, hencode, List.length_cons, hseq.length]

/--
Each of `chars` with the place of its first byte, where the first one stands at `pos`.
-/
def places (pos : Nat) (chars : List Char) : List (Nat × Code) :=
  match chars with
  | [] => []
  | x :: chars => (pos, x.toNat) :: places (pos + x.utf8Size) chars

end Utf8

namespace Encoding

open Utf8

variable {encoding : Encoding} {text : Array UInt8} {pos : Nat} {x : Char}

/--
The characters from `pos` on, each with the place of its first byte, and where the last one ends.
-/
def walk (encoding : Encoding) (text : Array UInt8) (pos : Nat) : List (Nat × Code) × Nat :=
  if pos < text.size then
    let char := encoding.decodeAt text pos
    let rest := encoding.walk text (pos + char.2)
    ((pos, char.1) :: rest.1, rest.2)
  else
    ([], pos)
termination_by text.size - pos
decreasing_by
  have := encoding.decodeAt_width_pos text pos
  omega

theorem walk_of_lt (hpos : pos < text.size) : encoding.walk text pos
    = ((pos, (encoding.decodeAt text pos).1) :: (encoding.walk text (pos + (encoding.decodeAt text pos).2)).1,
      (encoding.walk text (pos + (encoding.decodeAt text pos).2)).2) := by
  rw [walk, if_pos hpos]

theorem walk_of_size_le (hpos : text.size ≤ pos) : encoding.walk text pos = ([], pos) := by
  rw [walk, if_neg (Nat.not_lt.mpr hpos)]

/--
No character reaches over the end of the text.
-/
theorem walk_end (hpos : pos ≤ text.size) : (encoding.walk text pos).2 = text.size := by
  induction hrest : text.size - pos using Nat.strongRecOn generalizing pos with
  | ind rest ih =>
    rcases Nat.lt_or_ge pos text.size with hlt | hge
    . have hwidth := encoding.decodeAt_width_pos text pos
      rw [walk_of_lt hlt]
      exact ih _ (by omega) (encoding.decodeAt_le_size hlt) rfl
    . rw [walk_of_size_le hge]
      exact Nat.le_antisymm hpos hge

theorem decodeAt_utf8 (hpos : pos < text.size) :
    utf8.decodeAt text pos = (decodeAt? text pos).getD (text[pos].toNat, 1) := by
  rw [decodeAt, Array.getElem?_eq_getElem hpos]

/--
The encoding of a character is read as this character.
-/
theorem decodeAt_of_startsWith (h : String.utf8EncodeChar x <+: text.toList.drop pos) :
    utf8.decodeAt text pos = (x.toNat, x.utf8Size) := by
  have hlength := h.length_le
  rw [String.length_utf8EncodeChar, List.length_drop, Array.length_toList] at hlength
  have hwidth := x.utf8Size_pos
  rcases Nat.eq_or_lt_of_le hwidth with hone | hmore
  . have hascii : x.toNat < 0x80 := Nat.lt_succ_of_le (UInt32.le_iff_toNat_le.mp (Char.utf8Size_eq_one_iff.mp hone.symm))
    rw [IsAscii.utf8EncodeChar_eq hascii] at h
    have hbyte := IsAscii.toNat_toUInt8 hascii
    rw [decodeAt_of_ascii utf8 (getElem?_of_startsWith h) (by rwa [hbyte]), hbyte, ← hone]
  . rw [decodeAt_utf8 (by omega), decodeAt?_iff.mpr ⟨x, rfl, rfl, hmore, h⟩]
    rfl

theorem decodeAt_eq_iff {code width : Nat} (hpos : pos < text.size) (hwidth : 1 < width) :
    utf8.decodeAt text pos = (code, width)
      ↔ ∃ x : Char, x.toNat = code ∧ x.utf8Size = width ∧ String.utf8EncodeChar x <+: text.toList.drop pos := by
  constructor
  . intro h
    rw [decodeAt_utf8 hpos] at h
    cases hread : decodeAt? text pos with
    | none =>
      rw [hread, Option.getD_none, Prod.mk.injEq] at h
      omega
    | some char =>
      rw [hread, Option.getD_some] at h
      obtain ⟨x, hcode, hsize, _, hstarts⟩ := decodeAt?_iff.mp (h ▸ hread)
      exact ⟨x, hcode, hsize, hstarts⟩
  . rintro ⟨x, rfl, rfl, hstarts⟩
    exact decodeAt_of_startsWith hstarts

theorem decodeAt_of_not_startsWith (hpos : pos < text.size)
    (hno : ¬ ∃ x : Char, 1 < x.utf8Size ∧ String.utf8EncodeChar x <+: text.toList.drop pos) :
    utf8.decodeAt text pos = (text[pos].toNat, 1) := by
  rw [decodeAt_utf8 hpos]
  cases hread : decodeAt? text pos with
  | none => rfl
  | some char =>
    obtain ⟨x, _, hsize, hwidth, hstarts⟩ := decodeAt?_iff.mp hread
    exact absurd ⟨x, hsize ▸ hwidth, hstarts⟩ hno

/--
The characters of an encoded text are read at their places.
-/
theorem walk_of_encoded {chars : List Char} (h : text.toList.drop pos = chars.flatMap String.utf8EncodeChar) :
    (utf8.walk text pos).1 = places pos chars := by
  induction chars generalizing pos with
  | nil =>
    have hend := List.drop_eq_nil_iff.mp h
    rw [walk_of_size_le hend]
    rfl
  | cons x chars ih =>
    rw [List.flatMap_cons] at h
    have hstarts : String.utf8EncodeChar x <+: text.toList.drop pos := ⟨_, h.symm⟩
    have hlt : pos < text.size := by
      have hlength := hstarts.length_le
      have hwidth := x.utf8Size_pos
      rw [String.length_utf8EncodeChar, List.length_drop, Array.length_toList] at hlength
      omega
    have hrest : text.toList.drop (pos + x.utf8Size) = chars.flatMap String.utf8EncodeChar := by
      rw [← List.drop_drop, h, List.drop_left' (String.length_utf8EncodeChar x)]
    rw [walk_of_lt hlt, decodeAt_of_startsWith hstarts, ih hrest]
    rfl

/--
UTF-8 is read as it is written: at a place in a text, a character of more than one byte is read if its encoding stands there, and
else the byte. So the characters of an encoded text are read at their places, and the reading of a text ends at its end.
-/
theorem utf8_reads_encodings :
    (∀ (text : Array UInt8) (pos : Nat) (hpos : pos < text.size),
      (∀ code width, 1 < width → (utf8.decodeAt text pos = (code, width)
        ↔ ∃ x : Char, x.toNat = code ∧ x.utf8Size = width ∧ String.utf8EncodeChar x <+: text.toList.drop pos))
      ∧ ((¬ ∃ x : Char, 1 < x.utf8Size ∧ String.utf8EncodeChar x <+: text.toList.drop pos) →
        utf8.decodeAt text pos = (text[pos].toNat, 1)))
    ∧ (∀ chars : List Char, (utf8.walk (chars.flatMap String.utf8EncodeChar).toArray 0).1 = places 0 chars)
    ∧ ∀ text : Array UInt8, (utf8.walk text 0).2 = text.size := by
  refine ⟨?_, ?_, fun text => walk_end (Nat.zero_le _)⟩
  . intro text pos hpos
    exact ⟨fun code width hwidth => decodeAt_eq_iff hpos hwidth, decodeAt_of_not_startsWith hpos⟩
  . intro chars
    exact walk_of_encoded rfl

theorem utf8_reads_encodings_euro :
    let text := #[0xE2, 0x82, 0xAC, 0xE2, 0x82, 0x78]
    utf8.decodeAt text 0 = (0x20AC, 3)
      ∧ (¬ ∃ x : Char, 1 < x.utf8Size ∧ String.utf8EncodeChar x <+: text.toList.drop 3) ∧ utf8.decodeAt text 3 = (0xE2, 1)
      ∧ (utf8.walk text 0).2 = 6 ∧ (utf8.walk (['é', '€', '😀'].flatMap String.utf8EncodeChar).toArray 0).1
        = [(0, 0xE9), (2, 0x20AC), (5, 0x1F600)] := by
  intro text
  obtain ⟨hread, hwalk, hend⟩ := utf8_reads_encodings
  have hno : ¬ ∃ x : Char, 1 < x.utf8Size ∧ String.utf8EncodeChar x <+: text.toList.drop 3 := by
    rintro ⟨x, hsize, hstarts⟩
    have hone : utf8.decodeAt text 3 = (0xE2, 1) := by decide
    rw [((hread text 3 (by decide)).1 _ _ hsize).mpr ⟨x, rfl, rfl, hstarts⟩, Prod.mk.injEq] at hone
    omega
  exact ⟨((hread text 0 (by decide)).1 _ _ (by decide)).mpr ⟨'€', by decide, by decide, by decide⟩, hno,
    (hread text 3 (by decide)).2 hno, hend text, hwalk _⟩

end Encoding

end Highlight
