import Highlight.Proofs.Fold.Front
import Highlight.Scss

/-!
Folding SCSS twice. A pass reads the depth of its first line and the flags of its last one from levels that it stores
itself, and it stores what it has read.
-/

namespace Highlight

namespace Level

/--
Storing a depth with the flags that the level has keeps it, once it has been stored.
-/
theorem or_flags_or_flags (own level : Level) :
    own ||| ((own ||| (level &&& ~~~(0x0FFF : Level))) &&& ~~~(0x0FFF : Level)) = own ||| (level &&& ~~~(0x0FFF : Level)) := by
  rw [← Int32.toBitVec_inj]
  simp only [Int32.toBitVec_or, Int32.toBitVec_and]
  ext i hi
  simp only [BitVec.getElem_or, BitVec.getElem_and]
  cases own.toBitVec[i] <;> cases level.toBitVec[i] <;> cases (~~~(0x0FFF : Level)).toBitVec[i] <;> rfl

theorem number_or_flags {own : Level} (level : Level) : (own ||| (level &&& ~~~(0x0FFF : Level))).number = own.number :=
  number_or_flag own (by
    rw [Int32.and_assoc]
    show level &&& 0 = 0
    exact Int32.and_zero)

end Level

namespace Scss

open LineIndex
open Sweep (Twin)

variable {options : FoldOptions} {base base' doc doc' : Document} {sweep sweep' : Sweep}

/--
What the byte at `pos` adds to the depth.
-/
def countByte (options : FoldOptions) (sweep : Sweep) (pos : Nat) : Sweep :=
  let counted := if options.comments then sweep.shift (commentChange sweep.doc pos) else sweep
  if sweep.doc.styleAt pos == Style.operator then counted.brace (sweep.doc.byteAt pos 0x20) else counted

/--
Counting writes nothing, and stays on its line.
-/
theorem countByte_spec (options : FoldOptions) (sweep : Sweep) (pos : Nat) :
    (countByte options sweep pos).doc = sweep.doc ∧ (countByte options sweep pos).line = sweep.line
      ∧ (countByte options sweep pos).own = sweep.own := by
  have hcomment : ∃ change, (if options.comments then sweep.shift (commentChange sweep.doc pos) else sweep) = sweep.shift change := by
    split
    . exact ⟨_, rfl⟩
    . exact ⟨0, sweep.shift_zero.symm⟩
  obtain ⟨change, hcomment⟩ := hcomment
  unfold countByte
  dsimp only
  rw [hcomment]
  split
  . exact ⟨Sweep.doc_brace _ _, Sweep.line_brace _ _, Sweep.own_brace _ _⟩
  . exact ⟨rfl, rfl, rfl⟩

theorem foldByte_eq (options : FoldOptions) (sweep : Sweep) (pos : Nat) :
    foldByte options sweep pos
      = (if endsLine sweep.doc.text pos then
          (countByte options sweep pos).storeLevel ((countByte options sweep pos).plainLevel options.compact)
        else
          countByte options sweep pos).see (sweep.doc.byteAt pos 0x20) := by
  have hdoc := (countByte_spec options sweep pos).1
  unfold foldByte
  extract_lets b commented braced stored
  have hcommented : commented.doc = sweep.doc := by
    simp only [commented]
    split
    . rfl
    . rfl
  have hbraced : braced = countByte options sweep pos := by
    simp only [braced, hcommented, b]
    rfl
  simp only [stored, hbraced, hdoc, b]

theorem relevels_foldByte (options : FoldOptions) (h : Sweep.Relevels doc sweep) (pos : Nat) :
    Sweep.Relevels doc (foldByte options sweep pos) := by
  have hcounted : Sweep.Relevels doc (countByte options sweep pos) := by
    rw [Sweep.Relevels, (countByte_spec options sweep pos).1]
    exact h
  rw [foldByte_eq]
  exact .see (.ite (hcounted.trans (.setLevel _ _ _)) hcounted) _

theorem twin_countByte (h : Twin base base' sweep sweep') (pos : Nat) :
    Twin base base' (countByte options sweep pos) (countByte options sweep' pos) := by
  have hchange : commentChange sweep'.doc pos = commentChange sweep.doc pos := h.congr (f := (commentChange · pos)) fun _ _ => rfl
  have hstyle : sweep'.doc.styleAt pos = sweep.doc.styleAt pos := h.congr (f := (·.styleAt pos)) fun _ _ => rfl
  have hbyte : sweep'.doc.byteAt pos 0x20 = sweep.doc.byteAt pos 0x20 := h.congr (f := (·.byteAt pos 0x20)) fun _ _ => rfl
  unfold countByte
  rw [hchange, hstyle, hbyte]
  exact .ite (.brace (.ite (h.shift _) h) _) (.ite (h.shift _) h)

/--
What the step of the one sweep does is what the step of the other one does.
-/
theorem foldByte_of_twin (h : Twin base base' sweep sweep') (pos : Nat) :
    foldByte options sweep' pos
      = (if endsLine sweep.doc.text pos then
          (countByte options sweep' pos).storeLevel ((countByte options sweep pos).plainLevel options.compact)
        else
          countByte options sweep' pos).see (sweep.doc.byteAt pos 0x20) := by
  have hcounted : Twin base base' (countByte options sweep pos) (countByte options sweep' pos) := twin_countByte h pos
  have hends : endsLine sweep'.doc.text pos = endsLine sweep.doc.text pos := h.congr (f := (endsLine ·.text pos)) fun _ _ => rfl
  have hbyte : sweep'.doc.byteAt pos 0x20 = sweep.doc.byteAt pos 0x20 := h.congr (f := (·.byteAt pos 0x20)) fun _ _ => rfl
  have hlevel : (countByte options sweep' pos).plainLevel options.compact = (countByte options sweep pos).plainLevel options.compact := by
    rw [hcounted.eq]
    rfl
  rw [foldByte_eq, hends, hbyte, hlevel]

theorem twin_foldByte (h : Twin base base' sweep sweep') (pos : Nat) :
    Twin base base' (foldByte options sweep pos) (foldByte options sweep' pos) := by
  have hcounted : Twin base base' (countByte options sweep pos) (countByte options sweep' pos) := twin_countByte h pos
  rw [foldByte_eq, foldByte_of_twin h]
  exact .see (.ite (hcounted.storeLevel _) hcounted) _

/--
A sweep from the line `first` on, of which the level holds the depth `depth`. It has not changed that.
-/
structure Keeps (first : Nat) (depth : Int) (sweep : Sweep) : Prop where
  first_le : first ≤ sweep.line
  own : sweep.line = first → sweep.own = depth
  number : (sweep.doc.level first).number.toInt = depth

namespace Keeps

variable {first : Nat} {depth : Int}

theorem of_eq (h : Keeps first depth sweep) (hdoc : sweep'.doc = sweep.doc) (hline : sweep'.line = sweep.line)
    (hown : sweep'.own = sweep.own) : Keeps first depth sweep' := by
  obtain ⟨hle, hfirst, hnumber⟩ := h
  constructor
  . rwa [hline]
  . rwa [hline, hown]
  . rwa [hdoc]

theorem setLevel (h : Keeps first depth sweep) {level : Level} (hlevel : sweep.line = first → level.number.toInt = depth) :
    ((sweep.doc.setLevel sweep.line level).level first).number.toInt = depth := by
  have hnumber := h.number
  rw [Document.level] at hnumber ⊢
  rw [Document.getElem?_setLevel]
  split
  . next heq =>
    cases hget : sweep.doc.levels[first]? with
    | none =>
      rw [hget] at hnumber
      exact hnumber
    | some _ => exact hlevel heq
  . exact hnumber

variable (hlow : 0 ≤ depth) (hhigh : depth ≤ 0x0FFF)
include hlow hhigh

theorem storeLevel (h : Keeps first depth sweep) (compact : Bool) :
    Keeps first depth (sweep.storeLevel (sweep.plainLevel compact)) where
  first_le := Nat.le_succ_of_le h.first_le
  own := by
    intro heq
    have hle := h.first_le
    have heq : sweep.line + 1 = first := heq
    omega
  number := by
    refine h.setLevel fun heq => ?_
    have hown := h.own heq
    rw [Sweep.number_plainLevel (by omega) (by omega), hown]

theorem foldByte (options : FoldOptions) (h : Keeps first depth sweep) (pos : Nat) :
    Keeps first depth (foldByte options sweep pos) := by
  obtain ⟨hdoc, hline, hown⟩ := countByte_spec options sweep pos
  have hcounted : Keeps first depth (countByte options sweep pos) := h.of_eq hdoc hline hown
  rw [foldByte_eq]
  refine Keeps.of_eq ?_ (Sweep.doc_see _) (Sweep.line_see _) (Sweep.own_see _)
  split
  . exact hcounted.storeLevel hlow hhigh options.compact
  . exact hcounted

theorem foldl (options : FoldOptions) (h : Keeps first depth sweep) (span : Span) :
    Keeps first depth (sweep.over span (Scss.foldByte options)) := by
  unfold Sweep.over
  generalize List.range' span.start span.length = positions
  induction positions generalizing sweep with
  | nil => exact h
  | cons pos positions ih => exact ih (h.foldByte hlow hhigh options pos)

theorem storeDepth (h : Keeps first depth sweep) : ((storeDepth sweep).level first).number.toInt = depth := by
  refine h.setLevel fun heq => ?_
  have hown := h.own heq
  rw [Level.number_or_flags, Level.number_ofInt (by omega) (by omega), hown]

end Keeps

/--
The end of a pass stores the same over what it would have stored.
-/
theorem levels_storeDepth (hrefolded : sweep.doc.Refolded (storeDepth sweep) sweep'.doc) (hline : sweep'.line = sweep.line)
    (hown : sweep'.own = sweep.own) : (storeDepth sweep').levels = (storeDepth sweep).levels := by
  apply Array.ext_getElem?
  intro l
  have hlevel := hrefolded.levels l
  unfold storeDepth at hlevel ⊢
  dsimp only at hlevel ⊢
  rw [hline, hown, Document.level, Document.level, Document.getElem?_setLevel, Document.getElem?_setLevel]
  rw [Document.level, Document.getElem?_setLevel] at hlevel
  split
  . next heq =>
    subst heq
    rw [if_pos rfl] at hlevel
    rcases hlevel with hold | hnew
    . rw [hold]
    -- The flags that it reads are those that it has stored.
    . rw [hnew]
      cases sweep.doc.levels[sweep.line]? with
      | none => rfl
      | some level => exact congrArg some (Level.or_flags_or_flags _ level)
  . next hne =>
    rw [if_neg hne] at hlevel
    exact hlevel.elim id id

/--
The sweep over the whole lines of `span`, which start with the depth that the level of the first one holds.
-/
def swept (span : Span) (doc : Document) : Sweep :=
  let line := doc.lineOf span.start
  (Sweep.ofDepth doc line (doc.level line).number.toInt).over span (foldByte (FoldOptions.read doc.options))

theorem fold_eq (keywords : Keywords) (span : Span) (doc : Document) :
    fold keywords span doc = storeDepth (swept (doc.wholeLines span) doc) :=
  rfl

theorem relevelled_fold (keywords : Keywords) (span : Span) (doc : Document) : doc.Relevelled (fold keywords span doc) := by
  have hswept : Sweep.Relevels doc (swept (doc.wholeLines span) doc) :=
    Sweep.Relevels.foldl (relevels_foldByte (FoldOptions.read doc.options)) (show Sweep.Relevels doc (.ofDepth doc _ _) from .refl doc) _
  exact hswept.trans (.setLevel _ _ _)

theorem number_fold (keywords : Keywords) (span : Span) (doc : Document) :
    ((fold keywords span doc).level (doc.lineOf (doc.wholeLines span).start)).number
      = (doc.level (doc.lineOf (doc.wholeLines span).start)).number := by
  rw [fold_eq, ← Int32.toInt_inj]
  generalize doc.wholeLines span = span
  obtain ⟨hlow, hhigh⟩ := (doc.level (doc.lineOf span.start)).number_bounds
  have hstart : Keeps (doc.lineOf span.start) (doc.level (doc.lineOf span.start)).number.toInt
      (.ofDepth doc (doc.lineOf span.start) (doc.level (doc.lineOf span.start)).number.toInt) :=
    ⟨Nat.le_refl _, fun _ => rfl, rfl⟩
  exact (hstart.foldl hlow hhigh _ span).storeDepth hlow hhigh

/--
Folding what has been folded changes nothing, even where some of the levels are those in front of that.
-/
theorem fold_of_refolded {keywords : Keywords} {span : Span} (h : doc.Refolded (fold keywords span doc) doc') :
    (fold keywords span doc').levels = (fold keywords span doc).levels := by
  have hspan : doc'.wholeLines span = doc.wholeLines span := by
    obtain ⟨levels, _, rfl⟩ := h.relevelled
    rfl
  have hnumber := number_fold keywords span doc
  rw [fold_eq, fold_eq, hspan]
  rw [fold_eq] at h hnumber
  generalize doc.wholeLines span = span at *
  have hlevel : (doc'.level (doc.lineOf span.start)).number = (doc.level (doc.lineOf span.start)).number := by
    rw [Document.level, Document.level]
    rcases h.levels (doc.lineOf span.start) with hold | hnew
    . rw [hold]
    . rw [hnew]
      exact hnumber
  have hstart : Twin doc doc' (.ofDepth doc (doc.lineOf span.start) (doc.level (doc.lineOf span.start)).number.toInt)
      (.ofDepth doc' (doc'.lineOf span.start) (doc'.level (doc'.lineOf span.start)).number.toInt) := by
    rw [h.relevelled.sameSource.lineOf, hlevel]
    exact ⟨.of_relevelled h.relevelled, rfl⟩
  have htwin : Twin doc doc' (swept span doc) (swept span doc') := by
    unfold swept
    dsimp only
    rw [h.relevelled.sameSource.options]
    exact hstart.foldl twin_foldByte span
  refine levels_storeDepth (htwin.overlaid.refolded h) htwin.line ?_
  rw [htwin.eq]

section Front

open Sweep (Abreast)

variable {storing : Prop} {limit pos start stop stop' line : Nat} {depth : Int}

theorem abreast_countByte (h : Abreast storing limit sweep sweep') (hpos : pos < limit) :
    Abreast storing limit (countByte options sweep pos) (countByte options sweep' pos) := by
  have hchange : commentChange sweep'.doc pos = commentChange sweep.doc pos := by
    unfold commentChange
    rw [h.docs.styleAt (.inl hpos), h.docs.styleAt (.inl (show pos - 1 < limit by omega))]
  unfold countByte
  rw [hchange, h.docs.styleAt (.inl hpos), h.docs.byteAt (.inl hpos)]
  exact .ite (.brace (.ite (h.shift _) h) _) (.ite (h.shift _) h)

theorem abreast_foldByte (h : Abreast storing limit sweep sweep') (hpos : pos < limit) (hline : sweep.line = sweep.doc.lineOf pos) :
    Abreast storing limit (foldByte options sweep pos) (foldByte options sweep' pos) := by
  obtain ⟨hdoc, hcountedLine, _⟩ := countByte_spec options sweep pos
  have hcounted : Abreast storing limit (countByte options sweep pos) (countByte options sweep' pos) := abreast_countByte h hpos
  obtain ⟨hlt, hlt'⟩ := hcounted.line_lt hpos (by rw [hcountedLine, hdoc, hline])
  have hlevel : (countByte options sweep' pos).plainLevel options.compact = (countByte options sweep pos).plainLevel options.compact := by
    rw [hcounted.eq]
    rfl
  rw [foldByte_eq, foldByte_eq, h.docs.endsLine_eq hpos, h.docs.byteAt (.inl hpos), hlevel]
  exact .see (.ite (hcounted.storeLevel hlt hlt' _) hcounted) _

/--
A sweep over `doc` that stands at `pos`. At a line start it has nothing but the depth of the line.
-/
structure Stands (doc : Document) (pos : Nat) (sweep : Sweep) : Prop where
  relevelled : doc.Relevelled sweep.doc
  line : sweep.line = doc.lineOf pos
  inFront : startsLine doc.text pos = true → sweep = .ofDepth sweep.doc sweep.line sweep.own

namespace Stands

theorem ofDepth (doc : Document) (pos : Nat) (depth : Int) : Stands doc pos (.ofDepth doc (doc.lineOf pos) depth) :=
  ⟨.refl doc, rfl, fun _ => rfl⟩

theorem foldByte (h : Stands doc pos sweep) (hdoc : doc.WellFormed) (options : FoldOptions) :
    Stands doc (pos + 1) (foldByte options sweep pos) := by
  obtain ⟨hcountedDoc, hcountedLine, _⟩ := countByte_spec options sweep pos
  have htext := h.relevelled.sameSource.text
  have hline := h.line
  have hrelevelled := h.relevelled
  rw [foldByte_eq]
  generalize countByte options sweep pos = counted at *
  rw [← hcountedLine] at hline
  cases hends : endsLine doc.text pos with
  | true =>
    have hspace : Code.isSpace (sweep.doc.byteAt pos 0x20).toNat = true := by
      rw [Document.byteAt, htext]
      exact isSpace_of_endsLine hends _
    rw [htext, hends, if_pos rfl, Sweep.see_of_isSpace hspace]
    refine ⟨?_, ?_, fun _ => rfl⟩
    . show doc.Relevelled (counted.doc.setLevel _ _)
      rw [hcountedDoc]
      exact hrelevelled.trans (.setLevel _ _ _)
    . show counted.line + 1 = doc.lineOf (pos + 1)
      rw [hdoc.lineOf_succ, hends, if_pos rfl, hline]
  | false =>
    rw [htext, hends, if_neg Bool.false_ne_true]
    refine ⟨?_, ?_, ?_⟩
    . rw [Sweep.doc_see, hcountedDoc]
      exact hrelevelled
    . rw [Sweep.line_see, hdoc.lineOf_succ, hends, hline]
      rfl
    . rw [startsLine_succ, hends]
      exact fun hstart => absurd hstart Bool.false_ne_true

theorem stepsTo (h : Stands doc start sweep) (hdoc : doc.WellFormed) (options : FoldOptions) (hle : start ≤ stop) :
    Stands doc stop (stepsTo (Scss.foldByte options) sweep start stop) :=
  stepsTo_invariant hle (fun _ _ _ _ h => h.foldByte hdoc options) h

theorem line_lt (h : Stands doc pos sweep) (hdoc : doc.WellFormed) : sweep.line < sweep.doc.levels.size := by
  have hwell := h.relevelled.sameSource.wellFormed hdoc
  rw [hwell.levels, h.relevelled.sameSource.lineCount, h.line]
  exact hdoc.lineOf_lt pos

end Stands

/--
A sweep that has come by `line`, of which the depth is `depth`, when the levels in front were those of `base`.
-/
structure CameBy (base : Document) (line : Nat) (depth : Int) (sweep : Sweep) : Prop where
  levels : ∀ l : Nat, l < line → sweep.doc.levels[l]? = base.levels[l]?
  depth : sweep.line = line ∧ sweep.own = depth ∨ line < sweep.line ∧ (sweep.doc.level line).number.toInt = depth % 0x1000

namespace CameBy

theorem foldByte (h : CameBy base line depth sweep) (hline : sweep.line < sweep.doc.levels.size) (options : FoldOptions) (pos : Nat) :
    CameBy base line depth (foldByte options sweep pos) := by
  obtain ⟨hcountedDoc, hcountedLine, hcountedOwn⟩ := countByte_spec options sweep pos
  have hle : line ≤ sweep.line := h.depth.elim (fun h => Nat.le_of_eq h.1.symm) fun h => Nat.le_of_lt h.1
  rw [foldByte_eq]
  generalize countByte options sweep pos = counted at *
  have hcounted : CameBy base line depth counted := by
    refine ⟨?_, ?_⟩
    . rw [hcountedDoc]
      exact h.levels
    . rw [hcountedDoc, hcountedLine, hcountedOwn]
      exact h.depth
  have hstored : CameBy base line depth (counted.storeLevel (counted.plainLevel options.compact)) := by
    refine ⟨?_, .inr ⟨?_, ?_⟩⟩
    . intro l hl
      rw [← hcounted.levels l hl]
      show (counted.doc.setLevel counted.line _).levels[l]? = _
      rw [Document.getElem?_setLevel, if_neg (by omega)]
    . show line < counted.line + 1
      omega
    . show ((counted.doc.setLevel counted.line (counted.plainLevel options.compact)).level line).number.toInt = _
      rw [Document.level, Document.getElem?_setLevel]
      rcases hcounted.depth with ⟨heq, hown⟩ | ⟨hlt, hnumber⟩
      . rw [if_pos heq, Array.getElem?_eq_getElem (by rw [hcountedDoc]; omega), ← hown]
        exact Sweep.number_plainLevel_eq_emod options.compact
      . rw [if_neg (by omega)]
        exact hnumber
  have hsee : ∀ {sweep : Sweep}, CameBy base line depth sweep → ∀ b, CameBy base line depth (sweep.see b) := by
    intro sweep h b
    refine ⟨?_, ?_⟩
    . rw [Sweep.doc_see]
      exact h.levels
    . rw [Sweep.doc_see, Sweep.line_see, Sweep.own_see]
      exact h.depth
  split
  . exact hsee hstored _
  . exact hsee hcounted _

theorem storeDepth (h : CameBy base line depth sweep) (hline : sweep.line < sweep.doc.levels.size) :
    (∀ l : Nat, l < line → (storeDepth sweep).levels[l]? = base.levels[l]?)
      ∧ ((storeDepth sweep).level line).number.toInt = depth % 0x1000 := by
  have hle : line ≤ sweep.line := h.depth.elim (fun h => Nat.le_of_eq h.1.symm) fun h => Nat.le_of_lt h.1
  unfold Scss.storeDepth
  dsimp only
  constructor
  . intro l hl
    rw [Document.getElem?_setLevel, if_neg (by omega)]
    exact h.levels l hl
  . rcases h.depth with ⟨heq, hown⟩ | ⟨hlt, hnumber⟩
    . rw [Document.level, Document.getElem?_setLevel, if_pos heq, Array.getElem?_eq_getElem (by omega), ← hown]
      show (Level.number (Int32.ofInt sweep.own ||| _)).toInt = _
      rw [Level.number_or_flags, Level.number_ofInt_eq_emod]
    . rw [Document.level, Document.getElem?_setLevel, if_neg (by omega)]
      exact hnumber

end CameBy

/--
What the rest of a pass leaves of the lines that it has come by, and of the depth of the line that it is on.
-/
theorem storeDepth_stepsTo (h : Stands doc limit sweep) (hdoc : doc.WellFormed) (options : FoldOptions) (hle : limit ≤ stop) :
    (∀ l : Nat, l < sweep.line → (storeDepth (stepsTo (foldByte options) sweep limit stop)).levels[l]? = sweep.doc.levels[l]?)
      ∧ ((storeDepth (stepsTo (foldByte options) sweep limit stop)).level sweep.line).number.toInt = sweep.own % 0x1000 := by
  have hstart : CameBy sweep.doc sweep.line sweep.own sweep := ⟨fun _ _ => rfl, .inl ⟨rfl, rfl⟩⟩
  obtain ⟨hstands, hcame⟩ := stepsTo_invariant (f := foldByte options)
    (R := fun pos t => Stands doc pos t ∧ CameBy sweep.doc sweep.line sweep.own t) hle
    (fun pos t _ _ ht => ⟨ht.1.foldByte hdoc options, ht.2.foldByte (ht.1.line_lt hdoc) options pos⟩) ⟨h, hstart⟩
  exact hcame.storeDepth (hstands.line_lt hdoc)

/--
Passes over documents that show the same up to a limit store the same levels for the lines in front of it, and the
same depth for its own line.
-/
theorem levelsUpTo_stepsTo (h : Abreast storing limit sweep sweep') (hstands : Stands doc start sweep) (hstands' : Stands doc' start sweep')
    (hdoc : doc.WellFormed) (hdoc' : doc'.WellFormed) (options : FoldOptions) (hle : start ≤ limit) (hstop : limit ≤ stop)
    (hstop' : limit ≤ stop') :
    Document.LevelsUpTo False (fun _ => True) limit (storeDepth (stepsTo (foldByte options) sweep start stop))
      (storeDepth (stepsTo (foldByte options) sweep' start stop')) := by
  obtain ⟨hlimit, habreast⟩ := stepsTo_lockstep (f := foldByte options) (g := foldByte options)
    (R := fun pos t t' => Stands doc pos t ∧ Abreast storing limit t t') hle
    (fun pos t t' _ hlt ht => ⟨ht.1.foldByte hdoc options, abreast_foldByte ht.2 hlt (by
      rw [ht.1.line, ht.1.relevelled.sameSource.lineOf])⟩) ⟨hstands, h⟩
  have hlimit' := hstands'.stepsTo hdoc' options hle
  rw [← stepsTo_trans sweep hle hstop, ← stepsTo_trans sweep' hle hstop']
  generalize stepsTo (foldByte options) sweep start limit = t at *
  generalize stepsTo (foldByte options) sweep' start limit = t' at *
  obtain ⟨hlevels, hnumber⟩ := storeDepth_stepsTo hlimit hdoc options hstop
  obtain ⟨hlevels', hnumber'⟩ := storeDepth_stepsTo hlimit' hdoc' options hstop'
  have hline : (storeDepth (stepsTo (foldByte options) t limit stop)).lineOf limit = t.line := by
    rw [hlimit.line]
    exact ((hlimit.stepsTo hdoc options hstop).relevelled.trans (.setLevel _ _ _)).sameSource.lineOf limit
  rw [habreast.line] at hlevels' hnumber'
  refine ⟨?_, fun _ => ?_⟩
  . rintro l (hl | ⟨hfalse, _⟩)
    . rw [hline] at hl
      rw [hlevels l hl, hlevels' l hl, habreast.levels l hl]
    . exact hfalse.elim
  . rw [hline, ← Int32.toInt_inj, hnumber, hnumber', habreast.eq]

/--
The sweep of a pass over all of the text in front of `pos`.
-/
def sweepAt (doc : Document) (pos : Nat) : Sweep :=
  stepsTo (foldByte (.read doc.options)) (.ofDepth doc 0 (doc.level 0).number.toInt) 0 pos

/--
The depths that lines start with fit into the depths of levels.
-/
def LevelsFit (doc : Document) : Prop :=
  ∀ pos, pos ≤ doc.size → startsLine doc.text pos = true → 0 ≤ (sweepAt doc pos).own ∧ (sweepAt doc pos).own ≤ 0x0FFF

instance (doc : Document) : Decidable (LevelsFit doc) :=
  inferInstanceAs (Decidable (∀ pos, pos ≤ doc.size → _ → _))

theorem stands_sweepAt (hdoc : doc.WellFormed) (pos : Nat) : Stands doc pos (sweepAt doc pos) := by
  have hstart := Stands.ofDepth doc 0 (doc.level 0).number.toInt
  rw [hdoc.lineOf_zero] at hstart
  exact hstart.stepsTo hdoc _ (Nat.zero_le pos)

/--
What a pass leaves that is interrupted at a line start: a pass from there on goes on as if it had not been.
-/
theorem levelsUpTo_resume (hdoc : doc.WellFormed) (hreturn : 0x0D ∉ doc.text) (hfits : LevelsFit doc)
    (hstart : startsLine doc.text start = true) :
    let front := storeDepth (sweepAt doc start)
    let whole := storeDepth (sweepAt doc doc.size)
    doc.Relevelled front ∧ Document.LevelsUpTo False (fun _ => True) start whole front
      ∧ Document.LevelsUpTo False (fun _ => True) doc.size whole
        (storeDepth (stepsTo (foldByte (.read doc.options))
          (.ofDepth front (doc.lineOf start) (front.level (doc.lineOf start)).number.toInt) start doc.size)) := by
  intro front whole
  have hle : start ≤ doc.size := le_size_of_startsLine hstart
  have hstands := stands_sweepAt hdoc start
  have hown := hfits start hle hstart
  have hrelevelled : doc.Relevelled front := hstands.relevelled.trans (.setLevel _ _ _)
  have hwhole : whole = storeDepth (stepsTo (foldByte (.read doc.options)) (sweepAt doc start) start doc.size) := by
    show storeDepth (stepsTo _ _ 0 doc.size) = _
    rw [← stepsTo_trans _ (Nat.zero_le start) hle]
    rfl
  obtain ⟨hlevels, hnumber⟩ := storeDepth_stepsTo hstands hdoc (.read doc.options) hle
  obtain ⟨hlevels', hnumber'⟩ := storeDepth_stepsTo hstands hdoc (.read doc.options) (Nat.le_refl start)
  rw [stepsTo_self] at hlevels' hnumber'
  rw [← hwhole] at hlevels hnumber
  have hline : whole.lineOf start = (sweepAt doc start).line := by
    rw [hstands.line, hwhole]
    exact ((hstands.stepsTo hdoc _ hle).relevelled.trans (.setLevel _ _ _)).sameSource.lineOf start
  have hdepth : (front.level (doc.lineOf start)).number.toInt = (sweepAt doc start).own := by
    rw [← hstands.line]
    exact hnumber'.trans (Int.emod_eq_of_lt hown.1 (by omega))
  refine ⟨hrelevelled, ⟨?_, fun _ => ?_⟩, ?_⟩
  . rintro l (hl | ⟨hfalse, _⟩)
    . rw [hline] at hl
      rw [hlevels l hl]
      exact hlevels' l hl
    . exact hfalse.elim
  . rw [hline, ← Int32.toInt_inj, hnumber]
    exact hnumber'
  . have hsame : doc.AlikeUpTo False doc.size doc := .refl hdoc hreturn (.inr rfl)
    have habreast : Abreast False doc.size (sweepAt doc start) (.ofDepth front (doc.lineOf start) (sweepAt doc start).own) := by
      refine ⟨hsame.relevelled hstands.relevelled hrelevelled, hlevels', ?_⟩
      rw [hstands.inFront hstart, hstands.line]
      rfl
    rw [hwhole, hdepth]
    refine levelsUpTo_stepsTo habreast hstands ?_ hdoc hdoc (.read doc.options) hle (Nat.le_refl _) (Nat.le_refl _)
    exact ⟨hrelevelled, rfl, fun _ => rfl⟩

end Front

end Scss

end Highlight
