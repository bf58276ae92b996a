import Highlight.Proofs.Document.Marks

/-!
Spans of whole lines. A pass starts at the line start at or in front of where it was asked to, and
ends at the line start at or behind it, or with the text.
-/

namespace Highlight

open LineIndex

namespace LineIndex

/--
The line start at or behind `pos`, and the end of the text where no line starts there.
-/
def lineCeil (text : Array UInt8) (pos : Nat) : Nat :=
  if lineFloor text pos = pos then pos else (ofText text).lineStart ((ofText text).lineOf pos + 1)

/--
Whether whole lines can end at `pos`.
-/
def IsBoundary (text : Array UInt8) (pos : Nat) : Prop :=
  startsLine text pos = true ∨ pos = text.size

variable {text : Array UInt8}

theorem IsBoundary.le_size {pos : Nat} (h : IsBoundary text pos) : pos ≤ text.size := by
  rcases h with h | h
  . exact le_size_of_startsLine h
  . omega

theorem IsBoundary.startsLine {pos : Nat} (h : IsBoundary text pos) (hlt : pos < text.size) :
    startsLine text pos = true := by
  rcases h with h | h
  . exact h
  . omega

theorem lineCeil_spec {pos : Nat} (hpos : pos ≤ text.size) :
    pos ≤ lineCeil text pos ∧ IsBoundary text (lineCeil text pos)
      ∧ ∀ p, pos ≤ p → IsBoundary text p → lineCeil text pos ≤ p := by
  unfold lineCeil
  split
  . next h =>
    have := startsLine_lineFloor text pos
    rw [h] at this
    exact ⟨Nat.le_refl _, .inl this, fun p hp _ => hp⟩
  . next h =>
    have hno : startsLine text pos = false := by
      rw [Bool.eq_false_iff]
      intro hstart
      exact h (lineFloor_of_startsLine hstart)
    rw [lineOf_ofText]
    rcases next_lineStart_cases pos hpos with ⟨next, hlt, hnext, hmin, _, hline⟩ | ⟨hmin, _, hline⟩
    . rw [hline]
      refine ⟨Nat.le_of_lt hlt, .inl hnext, ?_⟩
      intro p hp hbound
      apply Decidable.byContradiction
      intro hover
      rcases hbound with hstart | hsize
      . by_cases heq : p = pos
        . subst heq
          simp [hno] at hstart
        . have := hmin p (by omega) (by omega)
          simp [this] at hstart
      . have := le_size_of_startsLine hnext
        omega
    . rw [hline]
      refine ⟨hpos, .inr rfl, ?_⟩
      intro p hp hbound
      rcases hbound with hstart | hsize
      . by_cases heq : p = pos
        . subst heq
          simp [hno] at hstart
        . have := hmin p (by omega)
          simp [this] at hstart
      . omega

theorem le_lineCeil {pos : Nat} (hpos : pos ≤ text.size) : pos ≤ lineCeil text pos :=
  (lineCeil_spec hpos).1

theorem isBoundary_lineCeil {pos : Nat} (hpos : pos ≤ text.size) : IsBoundary text (lineCeil text pos) :=
  (lineCeil_spec hpos).2.1

theorem lineCeil_of_isBoundary {pos : Nat} (h : IsBoundary text pos) : lineCeil text pos = pos := by
  have := (lineCeil_spec h.le_size).2.2 pos (Nat.le_refl _) h
  have := le_lineCeil h.le_size
  omega

theorem lineCeil_mono {pos pos' : Nat} (h : pos ≤ pos') (hpos : pos' ≤ text.size) :
    lineCeil text pos ≤ lineCeil text pos' :=
  (lineCeil_spec (by omega)).2.2 _ (by have := le_lineCeil hpos; omega) (isBoundary_lineCeil hpos)

end LineIndex

namespace Document

variable {doc doc' : Document}

/--
The style that whole lines from `pos` on start with.
-/
def styleBefore (doc : Document) (pos : Nat) : Style :=
  if pos == 0 then 0 else doc.styleAt (pos - 1)

/--
The span from `start` up to `stop`, with the style in front of it.
-/
def spanOf (doc : Document) (start stop : Nat) : Span :=
  { start, length := stop - start, style := doc.styleBefore start }

theorem styleBefore_congr {pos : Nat} (h : ∀ i : Nat, i < pos → doc'.styles[i]? = doc.styles[i]?) :
    doc'.styleBefore pos = doc.styleBefore pos := by
  unfold styleBefore
  split
  . rfl
  . next hpos =>
    rw [styleAt, styleAt, h]
    simp only [beq_iff_eq] at hpos
    omega

namespace WellFormed

theorem wholeLines_start (h : doc.WellFormed) (span : Span) :
    (doc.wholeLines span).start = lineFloor doc.text (min span.start doc.size) :=
  h.lineStart_lineOf _

theorem startsLine_wholeLines_start (h : doc.WellFormed) (span : Span) :
    startsLine doc.text (doc.wholeLines span).start = true := by
  rw [h.wholeLines_start]
  exact startsLine_lineFloor _ _

theorem wholeLines_start_le (h : doc.WellFormed) (span : Span) : (doc.wholeLines span).start ≤ doc.size :=
  le_size_of_startsLine (h.startsLine_wholeLines_start span)

theorem lineStart_le_size (h : doc.WellFormed) (line : Nat) : doc.lineStart line ≤ doc.size := by
  rw [Document.lineStart, h.lines]
  exact LineIndex.lineStart_le_size line

theorem wholeLines_stop_le (h : doc.WellFormed) (span : Span) : (doc.wholeLines span).stop ≤ doc.size := by
  have hstart := h.wholeLines_start_le span
  have hnext := h.lineStart_le_size (doc.lineOf (min (min span.start doc.size + span.length) doc.size) + 1)
  have hmin : min (min span.start doc.size + span.length) doc.size ≤ doc.size := Nat.min_le_right _ _
  simp only [Span.stop, wholeLines] at hstart ⊢
  split <;> omega

theorem lineCeil_eq (h : doc.WellFormed) {pos : Nat} (hpos : startsLine doc.text pos = false) :
    doc.lineStart (doc.lineOf pos + 1) = lineCeil doc.text pos := by
  rw [lineCeil, if_neg, Document.lineStart, Document.lineOf, h.lines]
  intro heq
  rw [← heq, startsLine_lineFloor] at hpos
  cases hpos

/--
Whole lines from a line start on end at the boundary at or behind the end that was asked for.
-/
theorem wholeLines_eq (h : doc.WellFormed) {start stop : Nat} (hstart : startsLine doc.text start = true)
    (hlt : start < stop) (hstop : stop ≤ doc.size) (style : Style) :
    doc.wholeLines ⟨start, stop - start, style⟩ = ⟨start, lineCeil doc.text stop - start, style⟩ := by
  have hmin : min start doc.size = start := by omega
  have hmin' : min (start + (stop - start)) doc.size = stop := by omega
  simp only [wholeLines]
  rw [hmin, hmin', h.lineStart_lineOf, h.lineStart_lineOf, lineFloor_of_startsLine hstart]
  simp only [beq_self_eq_true, ↓reduceIte, hlt, decide_true, Bool.true_and]
  cases hline : startsLine doc.text stop with
  | true =>
    rw [lineFloor_of_startsLine hline, lineCeil_of_isBoundary (.inl hline)]
    simp
  | false =>
    have hne : (lineFloor doc.text stop != stop) = true := by
      rw [bne_iff_ne]
      intro heq
      rw [← heq, startsLine_lineFloor] at hline
      cases hline
    rw [hne, if_pos rfl, h.lineCeil_eq hline]

/--
A range that holds a byte is widened to whole lines on both sides.
-/
theorem wholeLines_linesSpan? (h : doc.WellFormed) {start stop : Nat} (hlt : start < min stop doc.size) :
    ∃ span, doc.linesSpan? start stop = some span
      ∧ doc.wholeLines span = doc.spanOf (lineFloor doc.text start) (lineCeil doc.text (min stop doc.size)) := by
  have hle := lineFloor_le doc.text start
  refine ⟨_, if_pos hlt, ?_⟩
  rw [h.lineStart_lineOf, h.wholeLines_eq (startsLine_lineFloor _ start) (by omega) (by omega)]
  rfl

theorem wholeLines_spanOf (h : doc.WellFormed) {start stop : Nat} (hstart : startsLine doc.text start = true)
    (hlt : start < stop) (hstop : IsBoundary doc.text stop) :
    doc.wholeLines (doc.spanOf start stop) = doc.spanOf start stop := by
  rw [spanOf, h.wholeLines_eq hstart hlt hstop.le_size, lineCeil_of_isBoundary hstop]

end WellFormed

end Document

end Highlight
