import Highlight.Proofs.Document.Span
import Highlight.Proofs.Fold.Level
import Highlight.Proofs.Fold.Sweep
import Highlight.Proofs.Iteration

/-!
Fold passes that keep the depth of the next line in the level of a line. Such a pass can be interrupted at
each line start, and what it leaves in front of a line start depends on no mark behind it.
-/

namespace Highlight

open LineIndex

theorem LineIndex.isSpace_of_endsLine {text : Array UInt8} {pos : Nat} (h : endsLine text pos = true) (fallback : UInt8) :
    Code.isSpace (text[pos]?.getD fallback).toNat = true := by
  unfold endsLine at h
  split at h
  . next hb =>
    rw [hb]
    rfl
  . next hb =>
    rw [hb]
    rfl
  . cases h

namespace Level

/--
The depths that both halves of a level word hold.
-/
def Fits (depth : Int) : Prop :=
  0 ≤ depth ∧ depth ≤ 0x7FFF

instance (depth : Int) : Decidable (Fits depth) :=
  inferInstanceAs (Decidable (_ ∧ _))

theorem InField.fits {depth : Int} (h : InField depth) : Fits depth :=
  ⟨h.1, Int.le_trans h.2 (by decide)⟩

theorem toInt_next_compose {own next : Int} (hown : Fits own) (hnext : Fits next) (visible : Nat) (compact : Bool) :
    (compose (Int32.ofInt own) (Int32.ofInt next) visible compact).next.toInt = next := by
  obtain ⟨hown, hown'⟩ := hown
  obtain ⟨hnext, hnext'⟩ := hnext
  rw [next_compose hown (by omega) (by omega) (by omega)]
  exact Int32.toInt_ofInt_of_le (by omega) (by omega)

end Level

namespace Document

/--
The document with other styles and line states.
-/
def restyle (doc : Document) (styles : Array Style) (lineStates : Array LineState) : Document :=
  { doc with styles, lineStates }

/--
Styles and line states that are those of the document up to the line start `pos`.
-/
structure AgreesBelow (doc : Document) (styles : Array Style) (lineStates : Array LineState) (pos : Nat) : Prop where
  styles : ∀ i : Nat, i < pos → styles[i]? = doc.styles[i]?
  lineStates : ∀ l : Nat, l < doc.lineOf pos → lineStates[l]? = doc.lineStates[l]?

variable {doc doc' : Document} {styles : Array Style} {lineStates : Array LineState} {pos : Nat}

theorem WellFormed.restyle (h : doc.WellFormed) (hstyles : styles.size = doc.styles.size)
    (hstates : lineStates.size = doc.lineStates.size) : (doc.restyle styles lineStates).WellFormed :=
  ⟨h.lines, hstyles.trans h.styles, hstates.trans h.lineStates, h.levels⟩

theorem Relevelled.agreesBelow (h : doc.Relevelled doc') (hagree : doc.AgreesBelow styles lineStates pos) :
    doc'.AgreesBelow styles lineStates pos := by
  obtain ⟨levels, _, rfl⟩ := h
  exact ⟨hagree.styles, hagree.lineStates⟩

theorem Relevelled.restyle_self (h : doc.Relevelled doc') : doc'.restyle doc.styles doc.lineStates = doc' := by
  obtain ⟨levels, _, rfl⟩ := h
  rfl

theorem levelBefore_zero (doc : Document) : doc.levelBefore 0 = .base :=
  rfl

theorem restyle_self (doc : Document) : doc.restyle doc.styles doc.lineStates = doc :=
  rfl

theorem SameSource.eq_restyle (h : doc.SameSource doc') (hlevels : doc'.levels = doc.levels) :
    doc' = doc.restyle doc'.styles doc'.lineStates := by
  cases doc
  cases doc'
  simp only [restyle, Document.mk.injEq, true_and]
  exact ⟨h.text, h.lines, hlevels, h.options, h.encoding, h.endStyled⟩

theorem Relevelled.restyle_eq (h : doc.Relevelled doc') : doc'.restyle doc.styles doc.lineStates = doc' := by
  obtain ⟨levels, _, rfl⟩ := h
  rfl

theorem Relevelled.restyle_restyle (h : doc.Relevelled doc') (styles : Array Style) (lineStates : Array LineState) :
    (doc'.restyle styles lineStates).restyle doc.styles doc.lineStates = doc' := by
  obtain ⟨levels, _, rfl⟩ := h
  rfl

theorem Relevelled.of_restyle (h : (doc.restyle styles lineStates).Relevelled doc') :
    doc.Relevelled (doc'.restyle doc.styles doc.lineStates) := by
  obtain ⟨levels, hsize, rfl⟩ := h
  exact ⟨levels, hsize, rfl⟩

theorem holdsAt_restyle (doc : Document) (styles : Array Style) (lineStates : Array LineState) (pos : Nat)
    (bytes : List UInt8) : (doc.restyle styles lineStates).holdsAt pos bytes = doc.holdsAt pos bytes := by
  induction bytes generalizing pos with
  | nil => rfl
  | cons b bytes ih =>
    rw [holdsAt, holdsAt, ih]
    rfl

theorem matchesAt_restyle (doc : Document) (styles : Array Style) (lineStates : Array LineState) (pos : Nat) (s : String) :
    (doc.restyle styles lineStates).matchesAt pos s = doc.matchesAt pos s :=
  doc.holdsAt_restyle styles lineStates pos _

namespace AgreesBelow

theorem refl (doc : Document) (pos : Nat) : doc.AgreesBelow doc.styles doc.lineStates pos :=
  ⟨fun _ _ => rfl, fun _ _ => rfl⟩

theorem styleAt (h : doc.AgreesBelow styles lineStates pos) {i : Nat} (hi : i < pos) :
    (doc.restyle styles lineStates).styleAt i = doc.styleAt i := by
  rw [Document.styleAt, restyle, h.styles i hi]
  rfl

theorem lineState (h : doc.AgreesBelow styles lineStates pos) {line : Nat} (hline : line < doc.lineOf pos) :
    (doc.restyle styles lineStates).lineState line = doc.lineState line := by
  rw [Document.lineState, restyle, h.lineStates line hline]
  rfl

theorem styleBefore (h : doc.AgreesBelow styles lineStates pos) {i : Nat} (hi : i ≤ pos) :
    (doc.restyle styles lineStates).styleBefore i = doc.styleBefore i :=
  styleBefore_congr (fun j hj => h.styles j (by omega))

theorem lineStateAbove? (h : doc.AgreesBelow styles lineStates pos) {line : Nat} (hline : line < doc.lineOf pos) :
    (doc.restyle styles lineStates).lineStateAbove? line = doc.lineStateAbove? line := by
  unfold Document.lineStateAbove?
  rw [h.lineState (show line - 1 < doc.lineOf pos by omega)]

/--
At the end of a line, folding does not look at the style of the byte behind it.
-/
theorem streamCommentChange (h : doc.AgreesBelow styles lineStates pos) (hpos : startsLine doc.text pos = true) {i : Nat}
    (hi : i < pos) (isComment : Style → Bool) (before style : Style) :
    streamCommentChange isComment before style ((doc.restyle styles lineStates).styleAt (i + 1)) (endsLine doc.text i)
      = streamCommentChange isComment before style (doc.styleAt (i + 1)) (endsLine doc.text i) := by
  by_cases hlast : i + 1 < pos
  . rw [h.styleAt hlast]
  . have hends := endsLine_of_startsLine hpos (by omega)
    rw [show pos - 1 = i by omega] at hends
    simp only [Highlight.streamCommentChange, hends, Bool.not_true, Bool.and_false]

end AgreesBelow

end Document

namespace Sweep

variable {sweep : Sweep} {styles : Array Style} {lineStates : Array LineState}

/--
The depth that the line is stored with.
-/
def depth (sweep : Sweep) (atElse : Bool) : Int :=
  if atElse then sweep.least else sweep.own

/--
The same sweep over a document with other styles and line states.
-/
def restyle (sweep : Sweep) (styles : Array Style) (lineStates : Array LineState) : Sweep :=
  { sweep with doc := sweep.doc.restyle styles lineStates }

@[simp] theorem shift_restyle (change : Int) :
    (sweep.restyle styles lineStates).shift change = (sweep.shift change).restyle styles lineStates :=
  rfl

@[simp] theorem brace_restyle (b : UInt8) :
    (sweep.restyle styles lineStates).brace b = (sweep.brace b).restyle styles lineStates := by
  unfold brace
  split
  . rfl
  . split
    . rfl
    . rfl

@[simp] theorem see_restyle (b : UInt8) :
    (sweep.restyle styles lineStates).see b = (sweep.see b).restyle styles lineStates := by
  unfold see
  split
  . rfl
  . rfl

theorem shift_shift (sweep : Sweep) (change change' : Int) :
    (sweep.shift change).shift change' = sweep.shift (change + change') := by
  simp only [shift, Int.add_assoc]

theorem shift_zero (sweep : Sweep) : sweep.shift 0 = sweep := by
  simp only [shift, Int.add_zero]

theorem doc_brace (sweep : Sweep) (b : UInt8) : (sweep.brace b).doc = sweep.doc := by
  unfold brace
  split
  . rfl
  . split
    . rfl
    . rfl

theorem line_brace (sweep : Sweep) (b : UInt8) : (sweep.brace b).line = sweep.line := by
  unfold brace
  split
  . rfl
  . split
    . rfl
    . rfl

theorem own_brace (sweep : Sweep) (b : UInt8) : (sweep.brace b).own = sweep.own := by
  unfold brace
  split
  . rfl
  . split
    . rfl
    . rfl

theorem see_of_isSpace {b : UInt8} (h : Code.isSpace b.toNat = true) : sweep.see b = sweep :=
  if_pos h

theorem doc_see (b : UInt8) : (sweep.see b).doc = sweep.doc := by
  unfold see
  split
  . rfl
  . rfl

theorem line_see (b : UInt8) : (sweep.see b).line = sweep.line := by
  unfold see
  split
  . rfl
  . rfl

theorem own_see (b : UInt8) : (sweep.see b).own = sweep.own := by
  unfold see
  split
  . rfl
  . rfl

/--
Behind a line of which the depths fit, the level that is stored says all that the sweep goes on with.
-/
theorem closeLine_eq_start {own : Int} (hline : sweep.line < sweep.doc.levels.size) (hown : Level.Fits own)
    (hnext : Level.Fits sweep.next) (compact : Bool) :
    sweep.closeLine own compact = .start (sweep.closeLine own compact).doc (sweep.line + 1) := by
  have hlevel : ((sweep.closeLine own compact).doc.levelBefore (sweep.line + 1)).toInt = sweep.next := by
    rw [Document.levelBefore, if_pos (Nat.succ_pos _), Nat.add_sub_cancel, closeLine, storeLevel, ofDepth,
      Document.level, Document.getElem?_setLevel, if_pos rfl, Array.getElem?_eq_getElem hline]
    exact Level.toInt_next_compose hown hnext _ _
  rw [start, hlevel]
  rfl

/--
A level that keeps no depth for the next line keeps its own.
-/
theorem number_plainLevel_eq_emod (compact : Bool) : (sweep.plainLevel compact).number.toInt = sweep.own % 0x1000 := by
  have hnumber := Level.number_ofInt_eq_emod sweep.own
  unfold plainLevel
  dsimp only
  split
  . rw [Level.number_or_flag _ (show Level.headerFlag &&& 0x0FFF = 0 by decide)]
    split
    . rw [Level.number_or_flag _ (show Level.whiteFlag &&& 0x0FFF = 0 by decide), hnumber]
    . exact hnumber
  . split
    . rw [Level.number_or_flag _ (show Level.whiteFlag &&& 0x0FFF = 0 by decide), hnumber]
    . exact hnumber

theorem number_plainLevel (hlow : 0 ≤ sweep.own) (hhigh : sweep.own ≤ 0x0FFF) (compact : Bool) :
    (sweep.plainLevel compact).number.toInt = sweep.own := by
  rw [number_plainLevel_eq_emod]
  omega

end Sweep

/--
A fold pass taken apart. A step of a pass up to `stop` counts what stands at the position, and stores a level
if it closes the line.
-/
structure Folding (σ : Type) where
  start : Document → Nat → σ
  step : Nat → σ → σ
  sweep : σ → Sweep
  pos : σ → Nat
  /-- The sweep, with what stands at the position counted. -/
  count : Nat → σ → Sweep
  closes : Nat → σ → Bool
  /-- The same scan over a document with other styles and line states. -/
  restyle : Array Style → Array LineState → σ → σ
  atElse : Bool
  compact : Bool

namespace Folding

variable {σ : Type}

def doc (m : Folding σ) (s : σ) : Document :=
  (m.sweep s).doc

def more (m : Folding σ) (stop : Nat) (s : σ) : Bool :=
  m.pos s < stop

def run (m : Folding σ) (stop : Nat) (s : σ) : σ :=
  repeatWhile (m.more stop) (m.step stop) (stop - m.pos s) s

def fold (m : Folding σ) (doc : Document) (start stop : Nat) : Document :=
  m.doc (m.run stop (m.start doc start))

variable {m : Folding σ} {doc doc' : Document} {styles : Array Style} {lineStates : Array LineState}
  {start pos stop : Nat} {s : σ}

/--
Both depths that the pass stores for each line fit.
-/
def LevelsFit (m : Folding σ) (doc : Document) (start stop : Nat) : Prop :=
  ∀ s, Iterates (m.more stop) (m.step stop) (m.start doc start) s → m.more stop s = true → m.closes stop s = true →
    Level.Fits ((m.count stop s).depth m.atElse) ∧ Level.Fits (m.count stop s).next

/--
Whether the depths that a step stores fit.
-/
def fits (m : Folding σ) (stop : Nat) (s : σ) : Bool :=
  !(m.more stop s && m.closes stop s)
    || decide (Level.Fits ((m.count stop s).depth m.atElse) ∧ Level.Fits (m.count stop s).next)

theorem levelsFit_of_holdsAlong {bound : Nat}
    (h : holdsAlong (m.fits stop) (m.more stop) (m.step stop) bound (m.start doc start) = true) :
    m.LevelsFit doc start stop := by
  intro s hrun hmore hcloses
  have hfits := hrun.of_holdsAlong h
  rw [fits, hmore, hcloses] at hfits
  exact of_decide_eq_true hfits

/--
What makes a fold pass one that can be interrupted.
-/
structure Lawful (m : Folding σ) : Prop where
  pos_start : ∀ doc pos, m.pos (m.start doc pos) = pos
  sweep_start : ∀ (doc : Document) pos, m.sweep (m.start doc pos) = .start doc (doc.lineOf pos)
  pos_lt : ∀ stop s, m.pos s < m.pos (m.step stop s)
  /-- What a step goes over ends no line, unless it is the byte at the position. -/
  endsLine_of_lt : ∀ stop s q, m.pos s < q → q < m.pos (m.step stop s) → endsLine (m.doc s).text q = false
  pos_of_endsLine : ∀ stop s, endsLine (m.doc s).text (m.pos s) = true → m.pos (m.step stop s) = m.pos s + 1
  closes_of_endsLine : ∀ stop s, endsLine (m.doc s).text (m.pos s) = true → m.closes stop s = true
  endsLine_of_closes : ∀ stop s, m.closes stop s = true → m.pos s + 1 = stop ∨ endsLine (m.doc s).text (m.pos s) = true
  doc_count : ∀ stop s, (m.count stop s).doc = m.doc s
  line_count : ∀ stop s, (m.count stop s).line = (m.sweep s).line
  sweep_step : ∀ stop s, m.sweep (m.step stop s)
    = (if m.closes stop s then (m.count stop s).closeLine ((m.count stop s).depth m.atElse) m.compact
        else m.count stop s).see ((m.doc s).byteAt (m.pos s) 0x20)
  /-- A scan that stands like one that starts at a line start is one. -/
  step_eq_start : ∀ stop s, endsLine (m.doc s).text (m.pos s) = true →
    m.sweep (m.step stop s) = .start (m.doc (m.step stop s)) ((m.doc (m.step stop s)).lineOf (m.pos s + 1)) →
    m.step stop s = m.start (m.doc (m.step stop s)) (m.pos s + 1)
  doc_restyle : ∀ styles lineStates s, m.doc (m.restyle styles lineStates s) = (m.doc s).restyle styles lineStates
  pos_restyle : ∀ styles lineStates s, m.pos (m.restyle styles lineStates s) = m.pos s
  start_restyle : ∀ {doc styles lineStates pos pos'}, doc.AgreesBelow styles lineStates pos' → pos ≤ pos' →
    m.start (doc.restyle styles lineStates) pos = m.restyle styles lineStates (m.start doc pos)
  /-- A step in front of the line start `pos` goes by no mark behind it, nor by where the pass ends. -/
  step_restyle : ∀ {styles lineStates pos stop s}, (m.doc s).WellFormed → (m.doc s).AgreesBelow styles lineStates pos →
    startsLine (m.doc s).text pos = true → m.pos s < pos → pos ≤ stop → (m.sweep s).line = (m.doc s).lineOf (m.pos s) →
    m.step pos (m.restyle styles lineStates s) = m.restyle styles lineStates (m.step stop s)

theorem more_iff : m.more stop s = true ↔ m.pos s < stop := by
  rw [more, decide_eq_true_eq]

theorem not_more_iff : m.more stop s = false ↔ stop ≤ m.pos s := by
  rw [more, decide_eq_false_iff_not, Nat.not_lt]

/--
A scan of `doc` that stands on the line that it counts.
-/
structure Scans (m : Folding σ) (doc : Document) (s : σ) : Prop where
  relevelled : doc.Relevelled (m.doc s)
  line : (m.sweep s).line = doc.lineOf (m.pos s)

theorem Scans.text_eq (hs : m.Scans doc s) : (m.doc s).text = doc.text :=
  hs.relevelled.sameSource.text

namespace Lawful

variable (h : m.Lawful)
include h

theorem doc_start : m.doc (m.start doc pos) = doc := by
  rw [Folding.doc, h.sweep_start]
  rfl

theorem scans_start : m.Scans doc (m.start doc pos) := by
  refine ⟨?_, ?_⟩
  . rw [h.doc_start]
    exact .refl doc
  . rw [h.sweep_start, h.pos_start]
    rfl

theorem relevelled_step (s : σ) : (m.doc s).Relevelled (m.doc (m.step stop s)) := by
  rw [Folding.doc.eq_1 m (m.step stop s), h.sweep_step, Sweep.doc_see]
  split
  . rw [← h.doc_count stop s]
    exact .setLevel _ _ _
  . rw [h.doc_count]
    exact .refl _

theorem line_step (stop : Nat) (s : σ) : (m.sweep (m.step stop s)).line = (m.sweep s).line + if m.closes stop s then 1 else 0 := by
  rw [h.sweep_step, Sweep.line_see, ← h.line_count stop s]
  split
  . rfl
  . rfl

/--
A step goes over the end of a line only if it begins there.
-/
theorem lineOf_step (hdoc : doc.WellFormed) (hs : m.Scans doc s) :
    doc.lineOf (m.pos (m.step stop s)) = doc.lineOf (m.pos s) + if endsLine doc.text (m.pos s) then 1 else 0 := by
  have htext := hs.text_eq
  have hpos := h.pos_lt stop s
  rw [hdoc.lineOf_eq, hdoc.lineOf_eq]
  split
  . next hends => rw [h.pos_of_endsLine stop s (by rw [htext]; exact hends), breaksBefore_succ, startsLine_succ, hends, if_pos rfl]
  . next hends =>
    refine breaksBefore_eq_of_no_start (Nat.le_of_lt hpos) ?_
    intro q hq hq'
    obtain ⟨q, rfl⟩ : ∃ before, q = before + 1 := ⟨q - 1, by omega⟩
    rw [startsLine_succ]
    by_cases heq : q = m.pos s
    . rw [heq, ← Bool.not_eq_true]
      exact hends
    . have := h.endsLine_of_lt stop s q (by omega) (by omega)
      rwa [htext] at this

/--
A pass comes to its end.
-/
theorem run_spec (stop : Nat) (s : σ) :
    Iterates (m.more stop) (m.step stop) s (m.run stop s) ∧ m.more stop (m.run stop s) = false := by
  refine ⟨iterates_repeatWhile _ _ _ _, more_repeatWhile _ _ (fun s => stop - m.pos s) ?_ _ _ (Nat.le_refl _)⟩
  intro s hmore
  have := h.pos_lt stop s
  have := more_iff.mp hmore
  omega

theorem relevelled_fold (doc : Document) (start stop : Nat) : doc.Relevelled (m.fold doc start stop) :=
  (h.run_spec stop (m.start doc start)).1.invariant (fun s => doc.Relevelled (m.doc s))
    (fun s _ hs => hs.trans (h.relevelled_step s)) (by
      rw [h.doc_start]
      exact .refl doc)

theorem run_eq {t : σ} (hrun : Iterates (m.more stop) (m.step stop) s t) (hend : stop ≤ m.pos t) : m.run stop s = t :=
  (h.run_spec stop s).1.end_unique (h.run_spec stop s).2 hrun (not_more_iff.mpr hend)

section Steps

variable (hdoc : doc.WellFormed) (hpos : startsLine doc.text pos = true) (hs : m.Scans doc s) (hlt : m.pos s < pos)
  (hstop : pos ≤ stop)
include hs

include hpos hlt

/--
No step goes over a line start.
-/
theorem pos_step_le : m.pos (m.step stop s) ≤ pos := by
  apply Decidable.byContradiction
  intro hover
  have htext := hs.text_eq
  have hends := endsLine_of_startsLine hpos (by omega)
  by_cases heq : m.pos s = pos - 1
  . have := h.pos_of_endsLine stop s (by rw [htext, heq]; exact hends)
    omega
  . have := h.endsLine_of_lt stop s (pos - 1) (by omega) (by omega)
    rw [htext, hends] at this
    cases this

include hstop

/--
In front of a line start, lines are closed where they end.
-/
theorem closes_eq : m.closes stop s = endsLine doc.text (m.pos s) := by
  have htext := hs.text_eq
  rw [Bool.eq_iff_iff]
  constructor
  . intro hcloses
    rcases h.endsLine_of_closes stop s hcloses with heq | hends
    . have hends := endsLine_of_startsLine hpos (by omega)
      rwa [show pos - 1 = m.pos s by omega] at hends
    . rwa [htext] at hends
  . intro hends
    exact h.closes_of_endsLine stop s (by rw [htext]; exact hends)

include hdoc

theorem scans_step : m.Scans doc (m.step stop s) := by
  refine ⟨hs.relevelled.trans (h.relevelled_step s), ?_⟩
  rw [h.line_step, h.lineOf_step hdoc hs, h.closes_eq hpos hs hlt hstop, hs.line]

/--
Behind the end of a line of which the depths fit, a scan goes on like one that starts there.
-/
theorem step_eq_start_of_fits (hends : endsLine doc.text (m.pos s) = true)
    (hfits : Level.Fits ((m.count stop s).depth m.atElse) ∧ Level.Fits (m.count stop s).next) :
    m.step stop s = m.start (m.doc (m.step stop s)) (m.pos (m.step stop s)) := by
  have htext := hs.text_eq
  have hstep := h.pos_of_endsLine stop s (by rw [htext]; exact hends)
  have hscans := h.scans_step hdoc hpos hs hlt hstop
  have hcloses := h.closes_eq hpos hs hlt hstop
  rw [hstep]
  refine h.step_eq_start stop s (by rw [htext]; exact hends) ?_
  have hblank : Code.isSpace ((m.doc s).byteAt (m.pos s) 0x20).toNat = true := by
    rw [Document.byteAt, htext]
    exact isSpace_of_endsLine hends _
  have hsweep := h.sweep_step stop s
  rw [hcloses, if_pos hends, Sweep.see_of_isSpace hblank] at hsweep
  have hline : (m.count stop s).line < (m.count stop s).doc.levels.size := by
    have hwell := hs.relevelled.sameSource.wellFormed hdoc
    rw [h.line_count, h.doc_count, hs.line, ← hs.relevelled.sameSource.lineOf, hwell.levels]
    exact hwell.lineOf_lt _
  have hlast := hscans.line
  rw [hstep, ← hscans.relevelled.sameSource.lineOf] at hlast
  rw [← hlast, Folding.doc, hsweep]
  exact Sweep.closeLine_eq_start hline hfits.1 hfits.2 m.compact

end Steps

section Runs

variable (hdoc : doc.WellFormed) (hpos : startsLine doc.text pos = true) (hle : start ≤ pos) (hstop : pos ≤ stop)
include hdoc hpos hle hstop

/--
A pass comes by each line start.
-/
theorem exists_iterates : ∃ t, Iterates (m.more pos) (m.step stop) (m.start doc start) t ∧ m.Scans doc t ∧ m.pos t = pos := by
  have hrun := iterates_repeatWhile (m.more pos) (m.step stop) (pos - start) (m.start doc start)
  have hend : m.more pos (repeatWhile (m.more pos) (m.step stop) (pos - start) (m.start doc start)) = false := by
    refine more_repeatWhile _ _ (fun s => pos - m.pos s) ?_ _ _ (Nat.le_of_eq (by rw [h.pos_start]))
    intro s hmore
    have := h.pos_lt stop s
    have := more_iff.mp hmore
    omega
  obtain ⟨hscans, hpos⟩ := hrun.invariant (fun s => m.Scans doc s ∧ m.pos s ≤ pos) (by
    intro s hmore ⟨hs, _⟩
    have hlt := more_iff.mp hmore
    exact ⟨h.scans_step hdoc hpos hs hlt hstop, h.pos_step_le hpos hs hlt⟩)
    ⟨h.scans_start, by rw [h.pos_start]; exact hle⟩
  exact ⟨_, hrun, hscans, Nat.le_antisymm hpos (not_more_iff.mp hend)⟩

/--
If the depths fit, the scan that a pass comes by at a line start is the one that a pass from there on starts
with.
-/
theorem eq_start_of_fits {t : σ} (hrun : Iterates (m.more pos) (m.step stop) (m.start doc start) t) (ht : m.pos t = pos)
    (hfits : m.LevelsFit doc start stop) : t = m.start (m.doc t) pos := by
  obtain ⟨_, _, _, heq⟩ := hrun.invariant (fun s => Iterates (m.more stop) (m.step stop) (m.start doc start) s
      ∧ m.Scans doc s ∧ m.pos s ≤ pos ∧ (startsLine doc.text (m.pos s) = true → s = m.start (m.doc s) (m.pos s))) (by
    rintro s hmore ⟨hrun, hs, _, _⟩
    have hlt := more_iff.mp hmore
    have hmore : m.more stop s = true := more_iff.mpr (by omega)
    refine ⟨hrun.tail hmore, h.scans_step hdoc hpos hs hlt hstop, h.pos_step_le hpos hs hlt, ?_⟩
    intro hline
    have hstep := h.pos_lt stop s
    have hends := endsLine_of_startsLine hline (by omega)
    by_cases hlast : m.pos (m.step stop s) - 1 = m.pos s
    . rw [hlast] at hends
      have hcloses := h.closes_of_endsLine stop s (by rw [hs.text_eq]; exact hends)
      exact h.step_eq_start_of_fits hdoc hpos hs hlt hstop hends (hfits s hrun hmore hcloses)
    . have := h.endsLine_of_lt stop s (m.pos (m.step stop s) - 1) (by omega) (by omega)
      rw [hs.text_eq, hends] at this
      cases this)
    ⟨.refl _, h.scans_start, by rw [h.pos_start]; exact hle, by
      intro _
      rw [h.pos_start, h.doc_start]⟩
  rw [ht] at heq
  exact heq hpos

/--
Up to a line start, a pass goes by no mark behind it.
-/
theorem run_restyle {t : σ} (hrun : Iterates (m.more pos) (m.step stop) (m.start doc start) t) (ht : m.pos t = pos)
    (hagree : doc.AgreesBelow styles lineStates pos) :
    m.run pos (m.start (doc.restyle styles lineStates) start) = m.restyle styles lineStates t := by
  obtain ⟨t', hrun', rfl, _⟩ := hrun.lockstep (R := fun s' s => s' = m.restyle styles lineStates s ∧ m.Scans doc s)
    (by
      rintro _ s ⟨rfl, _⟩ hmore
      rw [more_iff, h.pos_restyle]
      exact more_iff.mp hmore)
    (by
      rintro _ s ⟨rfl, hs⟩ hmore
      have hlt := more_iff.mp hmore
      have hwell := hs.relevelled.sameSource.wellFormed hdoc
      refine ⟨h.step_restyle hwell (hs.relevelled.agreesBelow hagree) ?_ hlt hstop ?_, h.scans_step hdoc hpos hs hlt hstop⟩
      . rw [hs.text_eq]
        exact hpos
      . rw [hs.line, hs.relevelled.sameSource.lineOf])
    ⟨h.start_restyle hagree hle, h.scans_start⟩
  exact h.run_eq hrun' (Nat.le_of_eq (by rw [h.pos_restyle, ht]))

omit hstop in
/--
What a pass up to a line start leaves does not depend on marks behind it.
-/
theorem fold_restyle (hagree : doc.AgreesBelow styles lineStates pos) :
    (m.fold (doc.restyle styles lineStates) start pos).restyle doc.styles doc.lineStates = m.fold doc start pos := by
  obtain ⟨t, hrun, ht, hend⟩ := h.exists_iterates hdoc hpos hle (Nat.le_refl pos)
  rw [fold, fold, h.run_restyle hdoc hpos hle (Nat.le_refl pos) hrun hend hagree, h.run_eq hrun (Nat.le_of_eq hend.symm),
    h.doc_restyle, ht.relevelled.restyle_restyle]

/--
Folding up to a line start and from there on is folding at once.
-/
theorem fold_split (hfits : m.LevelsFit doc start stop) :
    m.fold (m.fold doc start pos) pos stop = m.fold doc start stop := by
  obtain ⟨t, hrun, ht, hend⟩ := h.exists_iterates hdoc hpos hle hstop
  have hfront : m.fold doc start pos = m.doc t := by
    have hrestyle := h.run_restyle hdoc hpos hle hstop hrun hend (.refl doc pos)
    rw [doc.restyle_self] at hrestyle
    rw [fold, hrestyle, h.doc_restyle, ht.relevelled.restyle_eq]
  have hrest : Iterates (m.more stop) (m.step stop) (m.start doc start) t :=
    hrun.mono (fun s hmore => more_iff.mpr (Nat.lt_of_lt_of_le (more_iff.mp hmore) hstop))
  obtain ⟨hwhole, hover⟩ := h.run_spec stop (m.start doc start)
  rw [hfront, fold, fold, ← h.eq_start_of_fits hdoc hpos hle hstop hrun hend hfits,
    h.run_eq (hrest.rest hwhole hover) (not_more_iff.mp hover)]

end Runs

end Lawful

end Folding

end Highlight
