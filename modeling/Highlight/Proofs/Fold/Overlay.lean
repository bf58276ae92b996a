import Highlight.Proofs.Fold.Bytes

/-!
Folding over other levels. What a fold pass writes does not depend on the levels that it writes over, so folding what
has been folded changes nothing.
-/

namespace Highlight

namespace Document

variable {base base' doc doc' : Document}

/--
The document with some of its levels taken from `folded`.
-/
structure Refolded (doc folded doc' : Document) : Prop where
  relevelled : doc.Relevelled doc'
  levels : ∀ l : Nat, doc'.levels[l]? = doc.levels[l]? ∨ doc'.levels[l]? = folded.levels[l]?

/--
Documents in which the same levels have been written over those of `base` and `base'`.
-/
structure Overlaid (base base' doc doc' : Document) : Prop where
  relevelled : doc.Relevelled doc'
  levels : ∀ l : Nat, doc'.levels[l]? = doc.levels[l]?
    ∨ doc.levels[l]? = base.levels[l]? ∧ doc'.levels[l]? = base'.levels[l]?

theorem holdsAt_congr (htext : doc'.text = doc.text) (pos : Nat) (bytes : List UInt8) :
    doc'.holdsAt pos bytes = doc.holdsAt pos bytes := by
  induction bytes generalizing pos with
  | nil => rfl
  | cons b bytes ih => rw [holdsAt, holdsAt, byteAt?, byteAt?, htext, ih]

/--
A level that is written is the same afterwards, whatever it was.
-/
theorem Relevelled.getElem?_setLevel_self (h : doc.Relevelled doc') (line : Nat) (level : Level) :
    (doc'.setLevel line level).levels[line]? = (doc.setLevel line level).levels[line]? := by
  have hsize := h.sameSource.levels
  rw [getElem?_setLevel, getElem?_setLevel, if_pos rfl, if_pos rfl]
  rcases Nat.lt_or_ge line doc.levels.size with hlt | hge
  . rw [Array.getElem?_eq_getElem hlt, Array.getElem?_eq_getElem (by omega)]
    rfl
  . rw [Array.getElem?_eq_none hge, Array.getElem?_eq_none (by omega)]

namespace Overlaid

theorem of_relevelled (h : base.Relevelled base') : Overlaid base base' base base' :=
  ⟨h, fun _ => .inr ⟨rfl, rfl⟩⟩

theorem setLevel (h : Overlaid base base' doc doc') (line : Nat) (level : Level) :
    Overlaid base base' (doc.setLevel line level) (doc'.setLevel line level) where
  relevelled := by
    obtain ⟨levels, hsize, rfl⟩ := h.relevelled
    exact ⟨_, by rw [Array.size_setIfInBounds, hsize]; exact Array.size_setIfInBounds.symm, rfl⟩
  levels := by
    intro l
    by_cases hline : line = l
    . subst hline
      exact .inl (h.relevelled.getElem?_setLevel_self line level)
    . rw [getElem?_setLevel, getElem?_setLevel, if_neg hline, if_neg hline]
      exact h.levels l

/--
Levels that are not written stay those that were written over.
-/
theorem refolded {folded : Document} (h : Overlaid base base' doc doc') (hbase : base.Refolded folded base') : doc.Refolded folded doc' where
  relevelled := h.relevelled
  levels := by
    intro l
    rcases h.levels l with heq | ⟨hunwritten, heq⟩
    . exact .inl heq
    . rw [heq, hunwritten]
      exact hbase.levels l

/--
What is written over other levels of what has been written is what has been written.
-/
theorem eq_of_refolded (h : Overlaid base base' doc doc') (hdoc : base.Relevelled doc) (hbase : base.Refolded doc base') :
    doc' = doc :=
  hdoc.eq_of_levels (hdoc.trans h.relevelled) (Array.ext_getElem? fun l => ((h.refolded hbase).levels l).elim id id)

end Overlaid

end Document

namespace Sweep

/--
The same sweep over documents in which the same levels have been written over those of `base` and `base'`.
-/
structure Twin (base base' : Document) (sweep sweep' : Sweep) : Prop where
  overlaid : Document.Overlaid base base' sweep.doc sweep'.doc
  eq : sweep' = { sweep with doc := sweep'.doc }

namespace Twin

variable {base base' : Document} {sweep sweep' other other' : Sweep}

theorem start (h : base.Relevelled base') {line : Nat} (hlevel : base'.levelBefore line = base.levelBefore line) :
    Twin base base' (.start base line) (.start base' line) where
  overlaid := .of_relevelled h
  eq := by
    rw [Sweep.start, Sweep.start, hlevel]
    rfl

/--
Anything that depends on no level is the same in both.
-/
theorem congr (h : Twin base base' sweep sweep') {α : Type} {f : Document → α}
    (hf : ∀ doc levels, f { doc with levels } = f doc) : f sweep'.doc = f sweep.doc := by
  obtain ⟨levels, _, heq⟩ := h.overlaid.relevelled
  rw [heq, hf]

theorem line (h : Twin base base' sweep sweep') : sweep'.line = sweep.line := by
  rw [h.eq]

theorem shift (h : Twin base base' sweep sweep') (change : Int) : Twin base base' (sweep.shift change) (sweep'.shift change) where
  overlaid := h.overlaid
  eq := by
    rw [h.eq]
    rfl

theorem brace (h : Twin base base' sweep sweep') (b : UInt8) : Twin base base' (sweep.brace b) (sweep'.brace b) := by
  unfold Sweep.brace
  split
  . exact ⟨h.overlaid, by rw [h.eq]; rfl⟩
  . split
    . exact h.shift _
    . exact h

theorem see (h : Twin base base' sweep sweep') (b : UInt8) : Twin base base' (sweep.see b) (sweep'.see b) := by
  unfold Sweep.see
  split
  . exact h
  . exact ⟨h.overlaid, by rw [h.eq]⟩

theorem storeLevel (h : Twin base base' sweep sweep') (level : Level) :
    Twin base base' (sweep.storeLevel level) (sweep'.storeLevel level) where
  overlaid := by
    show Document.Overlaid base base' (sweep.doc.setLevel sweep.line level) (sweep'.doc.setLevel sweep'.line level)
    rw [h.line]
    exact h.overlaid.setLevel _ _
  eq := by
    rw [h.eq]
    rfl

theorem closeLine (h : Twin base base' sweep sweep') (own : Int) (compact : Bool) :
    Twin base base' (sweep.closeLine own compact) (sweep'.closeLine own compact) := by
  have hlevel : Level.compose (Int32.ofInt own) (Int32.ofInt sweep'.next) sweep'.visible compact
      = Level.compose (Int32.ofInt own) (Int32.ofInt sweep.next) sweep.visible compact := by
    rw [h.eq]
  rw [Sweep.closeLine, Sweep.closeLine, hlevel]
  exact h.storeLevel _

theorem ite {p : Prop} [Decidable p] (h : Twin base base' sweep sweep') (h' : Twin base base' other other') :
    Twin base base' (if p then sweep else other) (if p then sweep' else other') := by
  split
  . exact h
  . exact h'

theorem foldl {step step' : Sweep → Nat → Sweep}
    (hstep : ∀ {sweep sweep'}, Twin base base' sweep sweep' → ∀ pos, Twin base base' (step sweep pos) (step' sweep' pos))
    (h : Twin base base' sweep sweep') (span : Span) : Twin base base' (sweep.over span step) (sweep'.over span step') := by
  unfold Sweep.over
  generalize List.range' span.start span.length = positions
  induction positions generalizing sweep sweep' with
  | nil => exact h
  | cons pos positions ih => exact ih (hstep h pos)

end Twin

end Sweep

namespace ByteFold

open Sweep (Twin)

variable {m : ByteFold} {base base' : Document} {sweep sweep' : Sweep}

theorem twin_foldByte (stop : Nat)
    (hcount : ∀ {sweep sweep'}, Twin base base' sweep sweep' → ∀ pos, Twin base base' (m.count stop sweep pos) (m.count stop sweep' pos))
    (h : Twin base base' sweep sweep') (pos : Nat) : Twin base base' (m.foldByte stop sweep pos) (m.foldByte stop sweep' pos) := by
  have hcounted := hcount h pos
  have hcloses : m.closes stop sweep' pos = m.closes stop sweep pos :=
    h.congr (f := fun doc => doc.closesLine m.closingLast stop pos) fun _ _ => rfl
  have hdepth : (m.count stop sweep' pos).depth m.atElse = (m.count stop sweep pos).depth m.atElse := by
    rw [hcounted.eq]
    rfl
  have hbyte : sweep'.doc.byteAt pos 0x20 = sweep.doc.byteAt pos 0x20 :=
    h.congr (f := fun doc => doc.byteAt pos 0x20) fun _ _ => rfl
  unfold foldByte
  dsimp only
  rw [hcloses, hdepth, hbyte]
  exact .see (.ite (hcounted.closeLine _ _) hcounted) _

theorem overlaid_fold {start stop : Nat}
    (hcount : ∀ {sweep sweep'}, Twin base base' sweep sweep' → ∀ pos, Twin base base' (m.count stop sweep pos) (m.count stop sweep' pos))
    (h : base.Relevelled base') (hlevel : base'.levelBefore (base.lineOf start) = base.levelBefore (base.lineOf start))
    (hle : start ≤ stop) : Document.Overlaid base base' (m.folding.fold base start stop) (m.folding.fold base' start stop) := by
  have hspan : base'.spanOf start stop = base.spanOf start stop := by
    obtain ⟨levels, _, rfl⟩ := h
    rfl
  rw [fold_eq_over base hle, fold_eq_over base' hle, hspan, h.sameSource.lineOf]
  exact (Twin.foldl (twin_foldByte stop hcount) (.start h hlevel) _).overlaid

end ByteFold

end Highlight
