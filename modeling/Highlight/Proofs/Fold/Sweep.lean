import Highlight.Proofs.Document.Marks
import Highlight.R
import Highlight.Rust

/-!
A fold pass writes levels and nothing else.
-/

namespace Highlight

namespace Document

/--
Two documents that differ in the values of their levels at most.
-/
def Relevelled (doc doc' : Document) : Prop :=
  ∃ levels : Array Level, levels.size = doc.levels.size ∧ doc' = { doc with levels }

namespace Relevelled

variable {doc doc' doc'' : Document}

theorem refl (doc : Document) : Relevelled doc doc :=
  ⟨doc.levels, rfl, rfl⟩

theorem trans (h : Relevelled doc doc') (h' : Relevelled doc' doc'') : Relevelled doc doc'' := by
  obtain ⟨levels, hsize, rfl⟩ := h
  obtain ⟨levels', hsize', rfl⟩ := h'
  exact ⟨levels', hsize'.trans hsize, rfl⟩

theorem setLevel (doc : Document) (line : Nat) (level : Level) : Relevelled doc (doc.setLevel line level) :=
  ⟨_, Array.size_setIfInBounds, rfl⟩

theorem sameSource (h : Relevelled doc doc') : doc.SameSource doc' := by
  obtain ⟨levels, hsize, rfl⟩ := h
  exact ⟨rfl, rfl, rfl, rfl, rfl, rfl, rfl, hsize⟩

theorem styles (h : Relevelled doc doc') : doc'.styles = doc.styles := by
  obtain ⟨levels, _, rfl⟩ := h
  rfl

theorem lineStates (h : Relevelled doc doc') : doc'.lineStates = doc.lineStates := by
  obtain ⟨levels, _, rfl⟩ := h
  rfl

theorem eq_of_levels (h : Relevelled doc doc') (h' : Relevelled doc doc'') (hlevels : doc''.levels = doc'.levels) : doc'' = doc' := by
  obtain ⟨levels, _, rfl⟩ := h
  obtain ⟨levels', _, rfl⟩ := h'
  obtain rfl : levels' = levels := hlevels
  rfl

end Relevelled

end Document

namespace Sweep

/--
A sweep that has written levels of `doc` and nothing else.
-/
def Relevels (doc : Document) (sweep : Sweep) : Prop :=
  doc.Relevelled sweep.doc

namespace Relevels

variable {doc : Document} {sweep sweep' : Sweep}

theorem start (doc : Document) (line : Nat) : Relevels doc (.start doc line) :=
  .refl doc

theorem shift (h : Relevels doc sweep) (change : Int) : Relevels doc (sweep.shift change) :=
  h

theorem brace (h : Relevels doc sweep) (b : UInt8) : Relevels doc (sweep.brace b) := by
  unfold Sweep.brace
  split
  . exact h
  . split
    . exact h
    . exact h

theorem see (h : Relevels doc sweep) (b : UInt8) : Relevels doc (sweep.see b) := by
  unfold Sweep.see
  split
  . exact h
  . exact h

theorem closeLine (h : Relevels doc sweep) (own : Int) (compact : Bool) : Relevels doc (sweep.closeLine own compact) :=
  h.trans (.setLevel _ _ _)

theorem ite {p : Prop} [Decidable p] (h : Relevels doc sweep) (h' : Relevels doc sweep') :
    Relevels doc (if p then sweep else sweep') := by
  split
  . exact h
  . exact h'

theorem ite_shift {p : Prop} [Decidable p] (h : Relevels doc sweep) {change : Int} :
    Relevels doc (if p then sweep.shift change else sweep) :=
  (h.shift change).ite h

theorem ite_brace {p : Prop} [Decidable p] (h : Relevels doc sweep) {b : UInt8} :
    Relevels doc (if p then sweep.brace b else sweep) :=
  (h.brace b).ite h

theorem foldl {step : Sweep → Nat → Sweep} (hstep : ∀ {sweep}, Relevels doc sweep → ∀ pos, Relevels doc (step sweep pos))
    (h : Relevels doc sweep) (span : Span) : Relevels doc (sweep.over span step) := by
  unfold Sweep.over
  generalize List.range' span.start span.length = positions
  induction positions generalizing sweep with
  | nil => exact h
  | cons pos positions ih => exact ih (hstep h pos)

end Relevels

end Sweep

open Sweep (Relevels)

variable {doc : Document} {sweep : Sweep}

theorem R.relevels_foldByte (options : R.FoldOptions) (h : Relevels doc sweep) (pos : Nat) :
    Relevels doc (R.foldByte options sweep pos) := by
  unfold R.foldByte
  dsimp only
  refine .see (.ite (.closeLine ?_ _ _) ?_) _
  . exact h.ite_brace
  . exact h.ite_brace

theorem R.relevelled_fold (keywords : Keywords) (span : Span) (doc : Document) : doc.Relevelled (R.fold keywords span doc) :=
  Relevels.foldl (R.relevels_foldByte (R.FoldOptions.read doc.options)) (.start doc _) _

theorem Rust.relevels_foldByte (options : Rust.FoldOptions) (span : Span) (h : Relevels doc sweep) (pos : Nat) :
    Relevels doc (Rust.foldByte options span sweep pos) := by
  unfold Rust.foldByte
  dsimp only
  refine .see (.ite (.closeLine (.ite_shift ?_) _ _) ?_) _
  . exact h.ite_shift.ite_shift.ite_brace
  . exact h.ite_shift.ite_shift.ite_brace

theorem Rust.relevelled_fold (keywords : Keywords) (span : Span) (doc : Document) :
    doc.Relevelled (Rust.fold keywords span doc) := by
  unfold Rust.fold
  dsimp only
  split
  . exact Relevels.foldl (Rust.relevels_foldByte _ _) (.start doc _) _
  . exact .refl _

end Highlight
