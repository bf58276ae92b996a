import Highlight.Proofs.Fold.Front

/-!
Folding R as a pass over bytes.
-/

namespace Highlight.R

open LineIndex

def countByte (sweep : Sweep) (pos : Nat) : Sweep :=
  if sweep.doc.styleAt pos == Style.operator then sweep.brace (sweep.doc.byteAt pos 0x20) else sweep

def byteFold (options : FoldOptions) : ByteFold :=
  { count := fun _ => countByte
    closingLast := false
    atElse := options.atElse
    compact := options.compact }

theorem doc_countByte (sweep : Sweep) (pos : Nat) : (countByte sweep pos).doc = sweep.doc := by
  unfold countByte
  split
  . exact sweep.doc_brace _
  . rfl

theorem lawful_byteFold (options : FoldOptions) : (byteFold options).Lawful where
  doc_count := fun _ => doc_countByte
  line_count := by
    intro _ sweep pos
    show (countByte sweep pos).line = sweep.line
    unfold countByte
    split
    . exact sweep.line_brace _
    . rfl
  count_restyle := by
    intro styles lineStates pos pos' _ sweep _ hagree _ hlt _ _
    show countByte (sweep.restyle styles lineStates) pos = (countByte sweep pos).restyle styles lineStates
    unfold countByte
    rw [show (sweep.restyle styles lineStates).doc.styleAt pos = sweep.doc.styleAt pos from hagree.styleAt hlt]
    split
    . exact Sweep.brace_restyle _
    . rfl

theorem foldByte_eq (options : FoldOptions) (stop : Nat) :
    foldByte options = (byteFold options).foldByte stop := by
  funext sweep pos
  have hcloses : (byteFold options).closes stop sweep pos = endsLine sweep.doc.text pos := by
    simp [ByteFold.closes, Document.closesLine, byteFold]
  have hbyte : foldByte options sweep pos
      = (if endsLine (countByte sweep pos).doc.text pos then
          (countByte sweep pos).closeLine ((countByte sweep pos).depth options.atElse) options.compact
        else countByte sweep pos).see (sweep.doc.byteAt pos 0x20) := rfl
  rw [hbyte, doc_countByte, ByteFold.foldByte, hcloses]
  rfl

/--
The depths that a fold pass over the whole document stores fit.
-/
def LevelsFit (doc : Document) : Prop :=
  (byteFold (.read doc.options)).folding.LevelsFit doc 0 doc.size

theorem fold_eq {doc : Document} {span : Span} {start stop : Nat} (hle : start ≤ stop)
    (hspan : doc.wholeLines span = doc.spanOf start stop) (keywords : Keywords) :
    fold keywords span doc = (byteFold (.read doc.options)).folding.fold doc start stop := by
  rw [ByteFold.fold_eq_over doc hle, ← foldByte_eq]
  unfold fold
  dsimp only
  rw [hspan]
  rfl

section Overlaid

open Sweep (Twin)

variable {base base' : Document} {sweep sweep' : Sweep}

theorem twin_countByte (h : Twin base base' sweep sweep') (pos : Nat) : Twin base base' (countByte sweep pos) (countByte sweep' pos) := by
  have hstyle : sweep'.doc.styleAt pos = sweep.doc.styleAt pos := h.congr (f := (·.styleAt pos)) fun _ _ => rfl
  have hbyte : sweep'.doc.byteAt pos 0x20 = sweep.doc.byteAt pos 0x20 := h.congr (f := (·.byteAt pos 0x20)) fun _ _ => rfl
  unfold countByte
  rw [hstyle, hbyte]
  exact .ite (h.brace _) h

/--
What a pass writes does not depend on the levels that it writes over.
-/
theorem overlaid_fold (options : FoldOptions) {start stop : Nat} (h : base.Relevelled base')
    (hlevel : base'.levelBefore (base.lineOf start) = base.levelBefore (base.lineOf start)) (hle : start ≤ stop) :
    Document.Overlaid base base' ((byteFold options).folding.fold base start stop) ((byteFold options).folding.fold base' start stop) :=
  ByteFold.overlaid_fold twin_countByte h hlevel hle

end Overlaid

/--
What a byte adds to the depth depends on that byte and its style.
-/
theorem frontal_byteFold (options : FoldOptions) {storing : Prop} : (byteFold options).Frontal storing where
  toLawful := lawful_byteFold options
  count := by
    intro limit pos _ _ sweep sweep' h hpos _ _ _ _ _
    show (countByte sweep pos).Abreast storing limit (countByte sweep' pos)
    unfold countByte
    rw [h.docs.styleAt (.inl hpos), h.docs.byteAt (.inl hpos)]
    exact .ite (h.brace _) h

end Highlight.R
