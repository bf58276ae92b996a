import Highlight.Proofs.Cursor.Alike

/-!
Where the lines of a shared part begin and end.
-/

namespace Highlight

open LineIndex

namespace LineIndex

variable {text : Array UInt8} {pos q : Nat}

theorem lineStart_next_of_startsLine (hlt : pos < q) (hstart : startsLine text q = true)
    (hno : ∀ p, pos < p → p < q → startsLine text p = false) : (ofText text).lineStart (breaksBefore text pos + 1) = q := by
  have hsize := le_size_of_startsLine hstart
  rcases next_lineStart_cases pos (show pos ≤ text.size by omega) with ⟨next, hlt', hstart', hno', _, heq⟩ | ⟨hno', _⟩
  . rw [heq]
    rcases Nat.lt_trichotomy next q with h | h | h
    . have := hno next hlt' h
      rw [hstart'] at this
      cases this
    . exact h
    . have := hno' q hlt h
      rw [hstart] at this
      cases this
  . have := hno' q hlt
    rw [hstart] at this
    cases this

theorem lineStart_next_of_no_start (hpos : pos ≤ text.size) (hno : ∀ p, pos < p → startsLine text p = false) :
    (ofText text).lineStart (breaksBefore text pos + 1) = text.size := by
  rcases next_lineStart_cases pos hpos with ⟨next, hlt, hstart, _⟩ | ⟨_, _, heq⟩
  . have := hno next hlt
    rw [hstart] at this
    cases this
  . exact heq

end LineIndex

namespace View.Shows

variable {v : View} {doc doc' : Document} {pos : Nat}

theorem lineStart (h : v.Shows doc doc') (hpos : pos ≤ v.limit) :
    doc'.lineStart (doc.lineOf pos + v.shift) = doc.lineStart (doc.lineOf pos) + v.shift := by
  obtain ⟨hle, hstart, hno⟩ := lineFloor_spec doc.text pos
  rw [← h.lineOf hpos, h.wellFormed.lineStart_lineOf, h.wellFormed'.lineStart_lineOf]
  refine lineFloor_eq (Nat.add_le_add_right hle v.shift) ?_ ?_
  . rw [h.startsLine (Nat.le_trans hle hpos), hstart]
  . intro p hp hp'
    obtain ⟨p, rfl⟩ : ∃ p₀, p = p₀ + v.shift := ⟨p - v.shift, by omega⟩
    rw [h.startsLine (by omega)]
    exact hno p (by omega) (by omega)

theorem lineStart_next (h : v.Shows doc doc') (hpos : pos < v.reach) :
    doc'.lineStart (doc.lineOf pos + v.shift + 1) = doc.lineStart (doc.lineOf pos + 1) + v.shift
      ∧ doc.lineStart (doc.lineOf pos + 1) ≤ v.limit := by
  have hle := View.le_limit_of_lt_reach hpos
  have hlimit := h.limit_le
  have hlimit' := h.limit_le'
  rw [Document.size] at hlimit hlimit'
  rw [← h.lineOf hle, h.wellFormed.lineOf_eq, h.wellFormed'.lineOf_eq, Document.lineStart, Document.lineStart,
    h.wellFormed.lines, h.wellFormed'.lines]
  rcases next_lineStart_cases pos (show pos ≤ doc.text.size by omega) with ⟨next, hlt, hstart, hno, _, heq⟩ | ⟨hno, _, heq⟩
  . have hnext : next ≤ v.limit := by
      cases hwhole : v.whole with
      | true =>
        have hsize := (h.size_eq hwhole).1
        rw [← hsize]
        exact le_size_of_startsLine hstart
      | false =>
        rw [View.reach_of_open hwhole] at hpos
        apply Nat.le_of_not_lt
        intro hbehind
        have := hno v.limit hpos hbehind
        rw [(h.startsLine_limit hwhole).2.1] at this
        cases this
    rw [heq]
    refine ⟨lineStart_next_of_startsLine (Nat.add_lt_add_right hlt v.shift) ?_ ?_, hnext⟩
    . rw [h.startsLine hnext, hstart]
    . intro p hp hp'
      obtain ⟨p, rfl⟩ : ∃ p₀, p = p₀ + v.shift := ⟨p - v.shift, by omega⟩
      rw [h.startsLine (by omega)]
      exact hno p (by omega) (by omega)
  . cases hwhole : v.whole with
    | true =>
      obtain ⟨hsize, hsize'⟩ := h.size_eq hwhole
      rw [Document.size] at hsize hsize'
      rw [heq]
      refine ⟨?_, Nat.le_of_eq hsize⟩
      rw [lineStart_next_of_no_start (by omega), hsize', hsize]
      intro p hp
      by_cases hp' : p ≤ v.limit + v.shift
      . obtain ⟨p, rfl⟩ : ∃ p₀, p = p₀ + v.shift := ⟨p - v.shift, by omega⟩
        rw [h.startsLine (by omega)]
        exact hno p (by omega)
      . rw [Bool.eq_false_iff]
        intro hstart
        have := le_size_of_startsLine hstart
        omega
    | false =>
      rw [View.reach_of_open hwhole] at hpos
      have := hno v.limit hpos
      rw [(h.startsLine_limit hwhole).2.1] at this
      cases this

/--
A line of the part ends in front of the same terminator in both texts.
-/
theorem lineEnd (h : v.Shows doc doc') (hpos : pos < v.reach) :
    doc'.lineEnd (doc.lineOf pos + v.shift) = doc.lineEnd (doc.lineOf pos) + v.shift := by
  have hle := View.le_limit_of_lt_reach hpos
  have hfirst := h.lineStart hle
  obtain ⟨hnext, hlimit⟩ := h.lineStart_next hpos
  rw [Document.lineStart, Document.lineStart] at hfirst hnext
  rw [Document.lineStart] at hlimit
  unfold Document.lineEnd LineIndex.lineEnd
  dsimp only
  rw [hfirst, hnext]
  generalize doc.lines.lineStart (doc.lineOf pos) = start at *
  generalize doc.lines.lineStart (doc.lineOf pos + 1) = stop at *
  have hbyte : ∀ (stop : Nat) (b : UInt8), stop ≤ v.limit →
      (decide (start + v.shift < stop + v.shift) && doc'.text[stop + v.shift - 1]? == some b)
        = (decide (start < stop) && doc.text[stop - 1]? == some b) := by
    intro stop b hstop
    by_cases hlt : start < stop
    . rw [decide_eq_true hlt, decide_eq_true (Nat.add_lt_add_right hlt v.shift),
        show stop + v.shift - 1 = stop - 1 + v.shift by omega, h.text _ (by omega)]
    . rw [decide_eq_false hlt, decide_eq_false (by omega)]
      rfl
  rw [hbyte stop 0x0A hlimit]
  split
  . next hfeed =>
    rw [Bool.and_eq_true, decide_eq_true_eq] at hfeed
    rw [show stop + v.shift - 1 = stop - 1 + v.shift by omega, hbyte (stop - 1) 0x0D (by omega)]
    split
    . next hreturn =>
      rw [Bool.and_eq_true, decide_eq_true_eq] at hreturn
      omega
    . rfl
  . rw [hbyte stop 0x0D hlimit]
    split
    . next hreturn =>
      rw [Bool.and_eq_true, decide_eq_true_eq] at hreturn
      omega
    . rfl

end View.Shows

theorem Cursor.Alike.seesLineEnd {v : View} {rel : Style → Pen → Pen → Prop} {c c' : Cursor} (h : Alike v rel c c')
    (hin : c.pos < v.reach) : c'.seesLineEnd = c.seesLineEnd := by
  have hle := View.le_limit_of_lt_reach hin
  have hlimit := h.shows.limit_le
  have hline : c.line = c.doc.lineOf c.pos := by rw [h.settled.line, if_neg (by omega), Nat.add_zero]
  rw [Cursor.seesLineEnd, Cursor.seesLineEnd, h.line, h.pos, hline, h.shows.lineEnd hin, Bool.eq_iff_iff, beq_iff_eq, beq_iff_eq]
  omega

end Highlight
