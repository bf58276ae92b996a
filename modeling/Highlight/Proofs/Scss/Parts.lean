import Highlight.Proofs.Scss.Front
import Highlight.Proofs.Session.Folding

/-!
Folding SCSS in two parts. The pass over the first part leaves the depth of the line behind it in the level of that line,
from where the pass over the second part takes it. What it writes there next to the flags, that pass writes over or
writes again.
-/

namespace Highlight.Scss

open LineIndex
open Sweep (Twin)

variable {options : FoldOptions} {doc : Document} {s t t' : Sweep} {pos : Nat}

section Restyle

variable {styles : Array Style} {lineStates : Array LineState}

theorem countByte_restyle (hagree : t.doc.AgreesBelow styles lineStates pos) {i : Nat} (hi : i < pos) :
    countByte options (t.restyle styles lineStates) i = (countByte options t i).restyle styles lineStates := by
  have hstyle : (t.restyle styles lineStates).doc.styleAt i = t.doc.styleAt i := hagree.styleAt hi
  have hbefore : (t.restyle styles lineStates).doc.styleAt (i - 1) = t.doc.styleAt (i - 1) := hagree.styleAt (by omega)
  have hchange : commentChange (t.restyle styles lineStates).doc i = commentChange t.doc i := by
    unfold commentChange
    rw [hstyle, hbefore]
  have hcomment : ∀ change, (if options.comments then (t.restyle styles lineStates).shift change else t.restyle styles lineStates)
      = (if options.comments then t.shift change else t).restyle styles lineStates := by
    intro change
    split
    . rfl
    . rfl
  unfold countByte
  dsimp only
  rw [hchange, hcomment, hstyle]
  split
  . apply Sweep.brace_restyle
  . rfl

theorem foldByte_restyle (hagree : t.doc.AgreesBelow styles lineStates pos) {i : Nat} (hi : i < pos) :
    foldByte options (t.restyle styles lineStates) i = (foldByte options t i).restyle styles lineStates := by
  rw [foldByte_eq, foldByte_eq, countByte_restyle hagree hi, ← Sweep.see_restyle]
  show Sweep.see (if endsLine t.doc.text i = true then _ else _) _ = _
  split
  . rfl
  . rfl

/--
What a pass leaves that ends at a line start does not depend on the styles behind it.
-/
theorem storeDepth_restyle (hagree : doc.AgreesBelow styles lineStates pos) :
    (storeDepth (sweepAt (doc.restyle styles lineStates) pos)).restyle doc.styles doc.lineStates = storeDepth (sweepAt doc pos) := by
  obtain ⟨hrelevelled, hsweep⟩ := stepsTo_lockstep (f := foldByte (.read doc.options)) (g := foldByte (.read doc.options))
    (R := fun _ t t' => doc.Relevelled t.doc ∧ t' = t.restyle styles lineStates)
    (s := .ofDepth doc 0 (doc.level 0).number.toInt) (t := .ofDepth (doc.restyle styles lineStates) 0 (doc.level 0).number.toInt)
    (Nat.zero_le pos) (by
      rintro i t _ _ hi ⟨hrelevelled, rfl⟩
      exact ⟨relevels_foldByte _ hrelevelled i, foldByte_restyle (hrelevelled.agreesBelow hagree) hi⟩)
    ⟨.refl doc, rfl⟩
  have hfront : storeDepth (sweepAt (doc.restyle styles lineStates) pos) = (storeDepth (sweepAt doc pos)).restyle styles lineStates :=
    congrArg storeDepth hsweep
  have hstored : doc.Relevelled (storeDepth (sweepAt doc pos)) := hrelevelled.trans (.setLevel _ _ _)
  rw [hfront, hstored.restyle_restyle]

end Restyle

/--
Two sweeps that go on from `s`, of which the second one does so behind a pass that has ended with `s`. Either they are on
the same line still, or they have left it, and have stored the same level for it.
-/
structure GoesOn (s t t' : Sweep) : Prop extends Twin s.doc (storeDepth s) t t' where
  first : t.line = s.line ∧ t.own = s.own ∨ s.line < t.line ∧ t'.doc.levels[s.line]? = t.doc.levels[s.line]?

namespace GoesOn

theorem line_le (h : GoesOn s t t') : s.line ≤ t.line :=
  h.first.elim (fun h => Nat.le_of_eq h.1.symm) fun h => Nat.le_of_lt h.1

theorem see (h : GoesOn s t t') (b : UInt8) : GoesOn s (t.see b) (t'.see b) where
  toTwin := h.toTwin.see b
  first := by
    rw [Sweep.line_see, Sweep.own_see, Sweep.doc_see, Sweep.doc_see]
    exact h.first

theorem storeLevel (h : GoesOn s t t') (level : Level) : GoesOn s (t.storeLevel level) (t'.storeLevel level) where
  toTwin := h.toTwin.storeLevel level
  first := by
    have hle := h.line_le
    refine .inr ⟨Nat.lt_succ_of_le hle, ?_⟩
    show (t'.doc.setLevel t'.line level).levels[s.line]? = (t.doc.setLevel t.line level).levels[s.line]?
    rw [h.toTwin.line]
    rcases h.first with ⟨hline, _⟩ | ⟨hlt, hlevel⟩
    . rw [hline]
      exact h.overlaid.relevelled.getElem?_setLevel_self s.line level
    . rw [Document.getElem?_setLevel, Document.getElem?_setLevel, if_neg (by omega), if_neg (by omega)]
      exact hlevel

theorem countByte (h : GoesOn s t t') (options : FoldOptions) (pos : Nat) :
    GoesOn s (countByte options t pos) (countByte options t' pos) where
  toTwin := twin_countByte h.toTwin pos
  first := by
    obtain ⟨hdoc, hline, hown⟩ := countByte_spec options t pos
    obtain ⟨hdoc', _, _⟩ := countByte_spec options t' pos
    rw [hdoc, hline, hown, hdoc']
    exact h.first

theorem foldByte (h : GoesOn s t t') (options : FoldOptions) (pos : Nat) :
    GoesOn s (foldByte options t pos) (foldByte options t' pos) := by
  have hcounted := h.countByte options pos
  rw [foldByte_eq, foldByte_of_twin h.toTwin]
  apply GoesOn.see
  split
  . exact hcounted.storeLevel _
  . exact hcounted

/--
The level that the first pass has stored for the line that the second one begins with is stored again, or it has been
written over.
-/
theorem refolded (h : GoesOn s t t') : t.doc.Refolded (storeDepth t) t'.doc where
  relevelled := h.overlaid.relevelled
  levels := by
    intro l
    rcases h.overlaid.levels l with heq | ⟨hold, hnew⟩
    . exact .inl heq
    . by_cases hl : s.line = l
      . subst hl
        rcases h.first with ⟨hline, hown⟩ | ⟨_, heq⟩
        . right
          have hlevel : t.doc.level t.line = s.doc.level s.line := by rw [hline, Document.level, Document.level, hold]
          rw [hnew]
          unfold storeDepth
          dsimp only
          rw [hlevel, hline, hown, Document.getElem?_setLevel, Document.getElem?_setLevel, if_pos rfl, if_pos rfl, hold]
        . exact .inl heq
      . left
        rw [hnew, hold]
        unfold storeDepth
        dsimp only
        rw [Document.getElem?_setLevel, if_neg hl]

end GoesOn

/--
A pass from a line start on, behind one that has ended there, leaves what a pass over all of the text does.
-/
theorem storeDepth_resume (hdoc : doc.WellFormed) (hfits : LevelsFit doc) (hpos : startsLine doc.text pos = true) :
    let front := storeDepth (sweepAt doc pos)
    storeDepth (stepsTo (foldByte (.read doc.options))
        (.ofDepth front (doc.lineOf pos) (front.level (doc.lineOf pos)).number.toInt) pos doc.size)
      = storeDepth (sweepAt doc doc.size) := by
  intro front
  have hle : pos ≤ doc.size := le_size_of_startsLine hpos
  have hstands := stands_sweepAt hdoc pos
  obtain ⟨hlow, hhigh⟩ := hfits pos hle hpos
  have hwhole : sweepAt doc doc.size = stepsTo (foldByte (.read doc.options)) (sweepAt doc pos) pos doc.size :=
    (stepsTo_trans _ (Nat.zero_le pos) hle).symm
  have hdepth : (front.level (doc.lineOf pos)).number.toInt = (sweepAt doc pos).own := by
    obtain ⟨_, hnumber⟩ := storeDepth_stepsTo hstands hdoc (.read doc.options) (Nat.le_refl pos)
    rw [stepsTo_self, hstands.line] at hnumber
    exact hnumber.trans (Int.emod_eq_of_lt hlow (by omega))
  have hfront : (sweepAt doc pos).doc.Relevelled front := .setLevel _ _ _
  have hstart : GoesOn (sweepAt doc pos) (sweepAt doc pos) (.ofDepth front (doc.lineOf pos) (sweepAt doc pos).own) := by
    refine ⟨⟨.of_relevelled hfront, ?_⟩, .inl ⟨rfl, rfl⟩⟩
    rw [hstands.inFront hpos, hstands.line]
    rfl
  have hrest := stepsTo_lockstep (f := foldByte (.read doc.options)) (g := foldByte (.read doc.options))
    (R := fun _ t t' => GoesOn (sweepAt doc pos) t t') hle (fun i _ _ _ _ h => h.foldByte _ i) hstart
  rw [← hwhole] at hrest
  rw [hdepth]
  have hlevels := levels_storeDepth hrest.refolded hrest.toTwin.line (by rw [hrest.toTwin.eq])
  have hrelevelled := (stands_sweepAt hdoc doc.size).relevelled
  exact Document.Relevelled.eq_of_levels (hrelevelled.trans (.setLevel _ _ _))
    ((hrelevelled.trans hrest.overlaid.relevelled).trans (.setLevel _ _ _)) hlevels

/--
Folding SCSS up to a line start, while the bytes from there on still have other styles, and folding the rest once they
have their own, is folding all of it at once. The depths of the lines have to fit into levels.
-/
theorem fold_fold_eq_fold (session : Session) (hlexer : session.lexer = lexer) (doc : Document) (hdoc : doc.WellFormed)
    (hfits : LevelsFit doc) (pos : Nat) (hpos : startsLine doc.text pos = true) (styles : Array Style)
    (lineStates : Array LineState) (hstyles : styles.size = doc.styles.size) (hstates : lineStates.size = doc.lineStates.size)
    (hagree : doc.AgreesBelow styles lineStates pos) :
    session.fold ((session.fold (doc.restyle styles lineStates) 0 pos).restyle doc.styles doc.lineStates) pos doc.size
      = session.fold doc 0 doc.size := by
  have hle : pos ≤ doc.size := le_size_of_startsLine hpos
  rcases Nat.eq_zero_or_pos pos with rfl | hpositive
  . rw [Folding.fold_of_le (Nat.min_le_left _ _)]
    rfl
  . have hstyled := hdoc.restyle hstyles hstates
    have hrelevelled : doc.Relevelled (storeDepth (sweepAt doc pos)) := (stands_sweepAt hdoc pos).relevelled.trans (.setLevel _ _ _)
    have hresume := storeDepth_resume hdoc hfits hpos
    rw [session_fold_eq_sweepAt hlexer hstyled hpositive (.inl hpos), storeDepth_restyle hagree,
      session_fold_eq_sweepAt hlexer hdoc (Nat.lt_of_lt_of_le hpositive hle) (.inr rfl)]
    have hsource := hrelevelled.sameSource
    rcases Nat.eq_or_lt_of_le hle with heq | hlt
    . rw [Folding.fold_of_le (by rw [hsource.size]; omega), heq]
    . rw [session_fold_eq hlexer (hsource.wellFormed hdoc) (by rwa [hsource.text]) hlt (.inr (by rw [hsource.text]; rfl)),
        hsource.lineOf, hsource.options]
      exact hresume

/--
A block and a comment that are open at the cut, in front of bytes that pass for operators as long as they have no style of
their own, and of a last line that is not ended.
-/
theorem fold_fold_eq_fold_open_comment :
    let session := Session.ofLexer lexer
    let options := .ofList [("fold.comment", "1"), ("fold.compact", "0")]
    let doc := { Document.fresh "a\x7b/*\n*/\x7db".toUTF8.data .utf8 options with styles := #[0, 5, 9, 9, 9, 9, 9, 5, 0] }
    session.fold ((session.fold (doc.restyle #[0, 5, 9, 9, 9, 5, 5, 5, 5] doc.lineStates) 0 5).restyle doc.styles doc.lineStates)
      5 doc.size = session.fold doc 0 doc.size := by
  intro session options doc
  have hdoc : doc.WellFormed := ⟨rfl, by decide +kernel, Array.size_replicate, Array.size_replicate⟩
  apply fold_fold_eq_fold session rfl doc hdoc (by decide +kernel) 5 (by decide +kernel) _ _ (by decide +kernel) rfl
  exact ⟨by decide +kernel, fun _ _ => rfl⟩

end Highlight.Scss
