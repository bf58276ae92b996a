import Highlight.Proofs.Cursor.PenRelation

/-!
What alike cursors see. Behind the last character of a line they can see different texts, so a look
ahead is alike only behind a character that ends no line.
-/

namespace Highlight

open LineIndex

namespace Code

/--
Whether `c` is an ASCII character that neither ends a line nor stands for the end of the text.
-/
def isInner (c : Code) : Bool :=
  c < 0x80 && c != 0 && c != 0x0A && c != 0x0D

variable {c : Code}

theorem isInner_iff {c : Nat} : isInner c = true ↔ c < 0x80 ∧ c ≠ 0 ∧ c ≠ 0x0A ∧ c ≠ 0x0D := by
  simp only [isInner, Bool.and_eq_true, decide_eq_true_eq, bne_iff_ne, and_assoc, ne_eq]

theorem isInner_of_eq {x : Code} (hx : x.isInner = true) (h : (c == x) = true) : c.isInner = true := by
  rw [beq_iff_eq] at h
  rwa [h]

theorem isInner_of_is {x : Char} (hx : isInner x.toNat = true) (h : c.is x = true) : c.isInner = true :=
  isInner_of_eq hx h

theorem isInner_of_isOneOf {s : String} (hs : s.toList.all (fun x => isInner x.toNat) = true) (h : c.isOneOf s = true) :
    c.isInner = true := by
  obtain ⟨x, hx, hc⟩ := List.any_eq_true.mp h
  exact isInner_of_is (List.all_eq_true.mp hs x hx) hc

theorem isInner_of_isDigit {c : Nat} (h : isDigit c = true) : isInner c = true := by
  simp only [isDigit, Bool.and_eq_true, decide_eq_true_eq] at h
  rw [isInner_iff]
  have h1 : (0x30 : Nat) ≤ c := h.1
  have h2 : (c : Nat) ≤ 0x39 := h.2
  omega

theorem isInner_of_isUpper {c : Nat} (h : isUpper c = true) : isInner c = true := by
  simp only [isUpper, Bool.and_eq_true, decide_eq_true_eq] at h
  rw [isInner_iff]
  have h1 : (0x41 : Nat) ≤ c := h.1
  have h2 : (c : Nat) ≤ 0x5A := h.2
  omega

theorem isInner_of_isLower {c : Nat} (h : isLower c = true) : isInner c = true := by
  simp only [isLower, Bool.and_eq_true, decide_eq_true_eq] at h
  rw [isInner_iff]
  have h1 : (0x61 : Nat) ≤ c := h.1
  have h2 : (c : Nat) ≤ 0x7A := h.2
  omega

theorem isInner_of_isAlpha (h : c.isAlpha = true) : c.isInner = true := by
  rw [isAlpha, Bool.or_eq_true] at h
  exact h.elim isInner_of_isUpper isInner_of_isLower

theorem isInner_of_isAlphanumeric (h : c.isAlphanumeric = true) : c.isInner = true := by
  rw [isAlphanumeric, Bool.or_eq_true] at h
  exact h.elim isInner_of_isAlpha isInner_of_isDigit

end Code

namespace Cursor

variable {v : View} {loose : Style → Bool} {rel : Style → Pen → Pen → Prop} {c c' : Cursor}

theorem Settled.atLineEnd_of_isInner (h : c.Settled) (hcur : c.cur.isInner = true) : c.atLineEnd = false := by
  rw [Code.isInner_iff] at hcur
  rw [h.atLineEnd, Bool.or_eq_false_iff, Bool.eq_false_iff]
  constructor
  . intro hend
    rw [h.width_eq] at hend
    have := Encoding.decodeAt_of_endsLine c.doc.encoding hend
    rw [h.cur_eq] at hcur
    simp only [Document.decodeAt] at hcur
    rcases this with heq | heq | hle
    . exact hcur.2.2.1 heq
    . exact hcur.2.2.2 heq
    . exact absurd (Nat.le_trans hle (Nat.le_of_lt hcur.1)) (by decide)
  . rw [decide_eq_false_iff_not]
    intro hsize
    rw [h.cur_eq, Document.decodeAt, Encoding.decodeAt_of_size_le c.doc.encoding hsize] at hcur
    exact hcur.2.1 rfl

/--
The character in front of a line start is the last byte of the terminator there.
-/
theorem Settled.cur_of_atLineEnd (h : c.Settled) (hsingle : ∀ page, c.doc.encoding ≠ .doubleByte page)
    (hend : c.atLineEnd = true) (hsize : c.pos + c.width ≤ c.doc.size) :
    c.cur = (c.doc.byteAt (c.pos + c.width - 1) 0).toNat := by
  have hwidth := h.width_pos
  rw [h.atLineEnd, Bool.or_eq_true, decide_eq_true_eq] at hend
  rcases hend with hend | hend
  . rw [h.width_eq] at hend
    obtain ⟨b, hb, hread⟩ := Encoding.decodeAt_eq_of_endsLine c.doc.encoding hsingle hend
    have hcur : c.cur = b.toNat := by rw [h.cur_eq, Document.decodeAt, hread]
    have hone : c.width = 1 := by rw [h.width_eq, Document.decodeAt, hread]
    rw [hcur, hone, Nat.add_sub_cancel, Document.byteAt, hb]
    rfl
  . omega

/--
The last character of a line ends it, or stands for the end of the text.
-/
theorem Settled.cur_cases_of_atLineEnd (h : c.Settled) (hsingle : ∀ page, c.doc.encoding ≠ .doubleByte page)
    (hend : c.atLineEnd = true) : c.cur = 0x0A ∨ c.cur = 0x0D ∨ c.cur = 0 := by
  have hwidth := h.width_eq
  rw [h.atLineEnd, Bool.or_eq_true, decide_eq_true_eq] at hend
  rcases hend with hend | hend
  . rw [hwidth] at hend
    obtain ⟨b, hb, hread⟩ := Encoding.decodeAt_eq_of_endsLine c.doc.encoding hsingle hend
    obtain ⟨b', hb', hbreak⟩ := ascii_of_endsLine hend
    have hcur : c.cur = b.toNat := by rw [h.cur_eq, Document.decodeAt, hread]
    rw [Document.decodeAt, hread, Nat.add_sub_cancel, hb, Option.some.injEq] at hb'
    rw [hcur, hb']
    exact hbreak.imp_right .inl
  . right
    right
    rw [h.cur_eq, Document.decodeAt, Encoding.decodeAt_of_size_le c.doc.encoding hend]

namespace Alike

/--
Behind a character that ends no line, the next step stays in the part.
-/
theorem forward_lt (h : Alike v rel c c') (hin : c.pos < v.reach) (hend : c.atLineEnd = false) :
    c.forward.pos < v.reach := by
  rw [pos_forward (h.more hin)]
  exact h.pos_add_width_lt hin hend

theorem forward_inner (h : Alike v rel c c') (hin : c.pos < v.reach) (hcur : c.cur.isInner = true) :
    c.forward.pos < v.reach :=
  h.forward_lt hin (h.settled.atLineEnd_of_isInner hcur)

theorem next_of_isInner (h : Alike v rel c c') (hin : c.pos < v.reach) (hcur : c.cur.isInner = true) :
    c'.next = c.next :=
  h.next hin (h.settled.atLineEnd_of_isInner hcur)

/--
A test of the current character that only characters inside of a line pass, together with a test of the
next one.
-/
theorem and_next (h : Alike v rel c c') (hin : c.pos < v.reach) {p q : Code → Bool}
    (hp : ∀ x : Code, p x = true → x.isInner = true) : (p c.cur && q c'.next) = (p c.cur && q c.next) := by
  cases hcur : p c.cur with
  | true => rw [h.next_of_isInner hin (hp _ hcur)]
  | false => rfl

theorem cur_and_next (h : Alike v rel c c') (hin : c.pos < v.reach) {p q : Code → Bool}
    (hp : ∀ x : Code, p x = true → x.isInner = true) : (p c'.cur && q c'.next) = (p c.cur && q c.next) := by
  rw [h.cur hin, h.and_next hin hp]

theorem sees_and_next (h : Alike v rel c c') (hin : c.pos < v.reach) {x : Char} (hx : Code.isInner x.toNat = true)
    (q : Code → Bool) : (c.sees x && q c'.next) = (c.sees x && q c.next) :=
  h.and_next (p := (·.is x)) hin (fun _ => Code.isInner_of_is hx)

theorem sees (h : Alike v rel c c') (hin : c.pos < v.reach) (x : Char) : c'.sees x = c.sees x := by
  rw [Cursor.sees, Cursor.sees, h.cur hin]

theorem seesPair (h : Alike v rel c c') (hin : c.pos < v.reach) {x : Char} (hx : Code.isInner x.toNat = true)
    (y : Char) : c'.seesPair x y = c.seesPair x y :=
  h.cur_and_next (p := (·.is x)) (q := (·.is y)) hin (fun _ => Code.isInner_of_is hx)

end Alike

theorem isInner_of_sees {x : Char} (hx : Code.isInner x.toNat = true) (h : c.sees x = true) : c.cur.isInner = true :=
  Code.isInner_of_is hx h

theorem isInner_of_seesPair {x y : Char} (hx : Code.isInner x.toNat = true) (h : c.seesPair x y = true) :
    c.cur.isInner = true := by
  rw [Cursor.seesPair, Bool.and_eq_true] at h
  exact Code.isInner_of_is hx h.1

theorem next_of_seesPair {x y : Char} (h : c.seesPair x y = true) : c.next.is y = true := by
  rw [Cursor.seesPair, Bool.and_eq_true] at h
  exact h.2

end Cursor

namespace View

variable {v : View} {doc doc' : Document}

theorem Shows.bytes (h : v.Shows doc doc') {start stop : Nat} (hstop : stop ≤ v.reach) :
    doc'.bytes (start + v.shift) (stop + v.shift) = doc.bytes start stop := by
  have hmin := h.min_size hstop
  rw [Document.bytes, Document.bytes]
  apply Array.ext_getElem?
  intro i
  rw [Array.getElem?_extract, Array.getElem?_extract]
  rw [Document.size, Document.size] at hmin
  rw [hmin]
  by_cases hi : i < min stop doc.text.size - start
  . have hle := h.min_size_le hstop
    rw [Document.size] at hle
    rw [if_pos hi, if_pos (by omega), show start + v.shift + i = start + i + v.shift by omega, h.byteAt? (.inl (by omega))]
  . rw [if_neg hi, if_neg (by omega)]

end View

namespace Cursor.Alike

variable {v : View} {loose : Style → Bool} {rel : Style → Pen → Pen → Prop} {c c' : Cursor}

theorem token (hrel : v.Closed loose rel) (h : Alike v rel c c') (hstate : loose c.state = false) (limit : Nat) :
    c'.token limit = c.token limit := by
  have hsegment := hrel.segment hstate h.pen
  have hreach := h.le_reach
  have hstop : min c.pos (c.pen.segment + limit) ≤ v.reach := by omega
  have hbytes := @View.Shows.bytes _ _ _ h.shows c.pen.segment _ hstop
  rw [Cursor.token, Cursor.token, hsegment, h.pos, ← hbytes]
  congr 2
  omega

end Cursor.Alike

namespace Cursor

variable {v : View} {loose : Style → Bool} {rel : Style → Pen → Pen → Prop} {c c' : Cursor} {doc doc' : Document}

/--
An ASCII character is the byte at the cursor.
-/
theorem Settled.byte_of_isInner (h : c.Settled) (hcur : c.cur.isInner = true) :
    (c.doc.byteAt c.pos 0).toNat = c.cur ∧ c.width = 1 := by
  rw [Code.isInner_iff] at hcur
  rw [h.cur_eq, h.width_eq] at *
  obtain ⟨b, hb, hread⟩ := c.doc.encoding.ascii_of_decodeAt hcur.1 hcur.2.1
  rw [Document.decodeAt, hread, Document.byteAt, hb]
  exact ⟨rfl, rfl⟩

theorem Settled.cur_of_byte (h : c.Settled) (hbyte : Code.isInner (c.doc.byteAt c.pos 0).toNat = true) :
    c.cur = (c.doc.byteAt c.pos 0).toNat := by
  rw [Code.isInner_iff] at hbyte
  rw [h.cur_eq, Document.decodeAt]
  unfold Document.byteAt at *
  cases hb : c.doc.text[c.pos]? with
  | none =>
    rw [hb] at hbyte
    exact absurd rfl hbyte.2.1
  | some b =>
    rw [hb] at hbyte
    rw [c.doc.encoding.decodeAt_of_ascii hb hbyte.1]
    rfl

namespace Alike

theorem byteAt (h : Alike v rel c c') {count : Nat} (hlt : c.pos + count < v.reach) :
    c'.doc.byteAt (c'.pos + count) 0 = c.doc.byteAt (c.pos + count) 0 := by
  rw [h.pos, Nat.add_right_comm]
  exact h.shows.byteAt (View.lt_limit_or_whole hlt) 0

theorem byteAhead (h : Alike v rel c c') {count : Nat} (hlt : c.pos + count < v.reach) :
    c'.byteAhead count = c.byteAhead count := by
  rw [Cursor.byteAhead, Cursor.byteAhead, h.byteAt hlt]

end Alike

end Cursor

/--
Behind an ASCII byte that ends no line, the next one is in the part.
-/
theorem View.Shows.succ_lt_reach {v : View} {doc doc' : Document} (h : v.Shows doc doc') {pos : Nat} (hlt : pos < v.reach)
    (hbyte : Code.isInner (doc.byteAt pos 0).toNat = true) : pos + 1 < v.reach := by
  rw [Code.isInner_iff, Document.byteAt] at hbyte
  cases hwhole : v.whole with
  | true =>
    have hsize := (h.size_eq hwhole).1
    rw [reach_of_whole hwhole]
    apply Nat.succ_lt_succ
    rw [← hsize]
    apply Decidable.byContradiction
    intro hge
    rw [Array.getElem?_eq_none (Nat.le_of_not_lt hge)] at hbyte
    exact hbyte.2.1 rfl
  | false =>
    rw [reach_of_open hwhole] at hlt ⊢
    apply Nat.lt_of_le_of_ne hlt
    intro heq
    have hstart := (h.startsLine_limit hwhole).2.1
    rw [← heq, startsLine_succ] at hstart
    obtain ⟨b, hb, hbreak⟩ := ascii_of_endsLine hstart
    rw [hb] at hbyte
    exact hbreak.elim hbyte.2.2.1 hbyte.2.2.2

namespace Cursor

variable {v : View} {loose : Style → Bool} {rel : Style → Pen → Pen → Prop} {c c' : Cursor} {doc doc' : Document}

theorem bytesAgree_eq (h : v.Shows doc doc') {bytes : List UInt8} (hbytes : bytes.all (Code.isInner ·.toNat) = true) {pos : Nat}
    (hlt : pos < v.reach) : bytesAgree doc' id (pos + v.shift) bytes = bytesAgree doc id pos bytes := by
  induction bytes generalizing pos with
  | nil => rfl
  | cons b bytes ih =>
    rw [List.all_cons, Bool.and_eq_true] at hbytes
    rw [bytesAgree, bytesAgree, h.byteAt (View.lt_limit_or_whole hlt)]
    cases heq : id (doc.byteAt pos 0).toNat == b.toNat with
    | false => rfl
    | true =>
      have hinner : Code.isInner (doc.byteAt pos 0).toNat = true := by
        rw [id, beq_iff_eq] at heq
        rw [heq]
        exact hbytes.1
      rw [Nat.add_right_comm, ih hbytes.2 (h.succ_lt_reach hlt hinner)]

/--
The bytes of a text that the cursor sees.
-/
theorem isInner_of_bytesAgree {bytes : List UInt8} (hbytes : bytes.all (Code.isInner ·.toNat) = true) {pos : Nat}
    (h : bytesAgree doc id pos bytes = true) {i : Nat} (hi : i < bytes.length) :
    Code.isInner (doc.byteAt (pos + i) 0).toNat = true := by
  induction bytes generalizing pos i with
  | nil => cases hi
  | cons b bytes ih =>
    rw [List.all_cons, Bool.and_eq_true] at hbytes
    rw [bytesAgree, Bool.and_eq_true, id, beq_iff_eq] at h
    cases i with
    | zero =>
      rw [Nat.add_zero, h.1]
      exact hbytes.1
    | succ i =>
      rw [Nat.add_comm i 1, ← Nat.add_assoc]
      exact ih hbytes.2 h.2 (Nat.lt_of_succ_lt_succ hi)

theorem Settled.isInner_next (h : c.Settled) (hcur : c.cur.isInner = true) (hnext : c.next.isInner = true) :
    Code.isInner (c.doc.byteAt (c.pos + 1) 0).toNat = true := by
  have hwidth := (h.byte_of_isInner hcur).2
  rw [Code.isInner_iff] at hnext
  rw [h.next_eq, hwidth] at hnext
  obtain ⟨b, hb, hread⟩ := c.doc.encoding.ascii_of_decodeAt hnext.1 hnext.2.1
  rw [Document.decodeAt, hread] at hnext
  rw [Document.byteAt, hb]
  exact Code.isInner_iff.mpr hnext

/--
A text without line ends that the cursor sees stands there byte by byte.
-/
theorem isInner_of_seesText (h : c.Settled) {s : String} (hs : (Utf8.encode s).all (Code.isInner ·.toNat) = true)
    (hsees : c.seesText s = true) : ∀ i, i < (Utf8.encode s).length → Code.isInner (c.doc.byteAt (c.pos + i) 0).toNat = true := by
  intro i hi
  unfold seesText matchesBy at hsees
  generalize Utf8.encode s = bytes at *
  match bytes, hs, hi, hsees with
  | [first], hs, hi, hsees =>
    simp only [id, beq_iff_eq, List.all_cons, List.all_nil, Bool.and_true] at hsees hs
    obtain rfl : i = 0 := Nat.lt_one_iff.mp hi
    rw [Nat.add_zero, (h.byte_of_isInner (by rw [hsees]; exact hs)).1, hsees]
    exact hs
  | first :: second :: rest, hs, hi, hsees =>
    simp only [id, beq_iff_eq, List.all_cons, Bool.and_eq_true] at hsees hs
    have hcur : c.cur.isInner = true := by
      rw [hsees.1.1]
      exact hs.1
    match i, hi with
    | 0, _ =>
      rw [Nat.add_zero, (h.byte_of_isInner hcur).1]
      exact hcur
    | 1, _ =>
      refine h.isInner_next hcur ?_
      rw [hsees.1.2]
      exact hs.2.1
    | i + 2, hi =>
      rw [Nat.add_comm i 2, ← Nat.add_assoc]
      exact isInner_of_bytesAgree hs.2.2 hsees.2 (Nat.lt_of_succ_lt_succ (Nat.lt_of_succ_lt_succ hi))

namespace Alike

theorem seesText (h : Alike v rel c c') (hin : c.pos < v.reach) {s : String}
    (hs : (Utf8.encode s).all (Code.isInner ·.toNat) = true) : c'.seesText s = c.seesText s := by
  unfold Cursor.seesText matchesBy
  generalize Utf8.encode s = bytes at *
  match bytes, hs with
  | [], _ => rfl
  | [first], _ =>
    dsimp only
    rw [h.cur hin]
  | first :: second :: rest, hs =>
    simp only [List.all_cons, Bool.and_eq_true] at hs
    dsimp only
    rw [h.cur hin]
    cases hfirst : id c.cur == first.toNat with
    | false => rfl
    | true =>
      have hcur : c.cur.isInner = true := by
        rw [id, beq_iff_eq] at hfirst
        rw [hfirst]
        exact hs.1
      rw [h.next_of_isInner hin hcur]
      cases hsecond : id c.next == second.toNat with
      | false => rfl
      | true =>
        have hnext : c.next.isInner = true := by
          rw [id, beq_iff_eq] at hsecond
          rw [hsecond]
          exact hs.2.1
        have hbyte : Code.isInner (c.doc.byteAt c.pos 0).toNat = true := by
          rw [(h.settled.byte_of_isInner hcur).1]
          exact hcur
        have hlt := h.shows.succ_lt_reach (h.shows.succ_lt_reach hin hbyte) (h.settled.isInner_next hcur hnext)
        rw [h.pos, Nat.add_right_comm, bytesAgree_eq h.shows hs.2.2 hlt]

/--
Going forward over ASCII characters that end no line.
-/
theorem forwardBy (h : Alike v rel c c') (hin : c.pos < v.reach) {count : Nat}
    (hbytes : ∀ i, i < count → Code.isInner (c.doc.byteAt (c.pos + i) 0).toNat = true) :
    Alike v rel (c.forwardBy count) (c'.forwardBy count) ∧ (c.forwardBy count).pos = c.pos + count
      ∧ (c.forwardBy count).pos < v.reach := by
  induction count generalizing c c' with
  | zero => exact ⟨h, rfl, hin⟩
  | succ count ih =>
    have hmore := h.more hin
    have hbyte := hbytes 0 (Nat.zero_lt_succ count)
    rw [Nat.add_zero] at hbyte
    have hcur : c.cur.isInner = true := by rwa [h.settled.cur_of_byte hbyte]
    have hpos : c.forward.pos = c.pos + 1 := by rw [pos_forward hmore, (h.settled.byte_of_isInner hcur).2]
    obtain ⟨halike, hat, hlt⟩ := ih (h.forward hin) (h.forward_inner hin hcur) (by
      intro i hi
      rw [hpos, Nat.add_assoc, Nat.add_comm 1 i, Cursor.doc, pen_forward hmore]
      exact hbytes (i + 1) (Nat.succ_lt_succ hi))
    refine ⟨halike, ?_, hlt⟩
    rw [Cursor.forwardBy, hat, hpos]
    omega

end Alike

theorem state_forwardBy (c : Cursor) (count : Nat) : (c.forwardBy count).state = c.state := by
  induction count generalizing c with
  | zero => rfl
  | succ count ih =>
    rw [forwardBy, ih, Cursor.forward]
    split <;> rfl

theorem line_le_forward (c : Cursor) : c.line ≤ c.forward.line := by
  rw [Cursor.forward]
  split
  . show c.line ≤ if c.atLineEnd then c.line + 1 else c.line
    split <;> omega
  . exact Nat.le_refl _

theorem line_le_forwardBy (c : Cursor) (count : Nat) : c.line ≤ (c.forwardBy count).line := by
  induction count generalizing c with
  | zero => exact Nat.le_refl _
  | succ count ih => exact Nat.le_trans c.line_le_forward (ih c.forward)

/--
A character and the next one, if neither ends a line.
-/
theorem Settled.isInner_pair (h : c.Settled) (hcur : c.cur.isInner = true) (hnext : c.next.isInner = true) :
    ∀ i, i < 2 → Code.isInner (c.doc.byteAt (c.pos + i) 0).toNat = true := by
  intro i hi
  match i, hi with
  | 0, _ =>
    rw [Nat.add_zero, (h.byte_of_isInner hcur).1]
    exact hcur
  | 1, _ => exact h.isInner_next hcur hnext

theorem Settled.isInner_of_seesPair (h : c.Settled) {x y : Char} (hx : Code.isInner x.toNat = true)
    (hy : Code.isInner y.toNat = true) (hsees : c.seesPair x y = true) :
    ∀ i, i < 2 → Code.isInner (c.doc.byteAt (c.pos + i) 0).toNat = true :=
  h.isInner_pair (Cursor.isInner_of_seesPair hx hsees) (Code.isInner_of_is hy (next_of_seesPair hsees))

end Cursor

end Highlight
