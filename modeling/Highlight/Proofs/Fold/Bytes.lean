import Highlight.Proofs.Fold.Folding

/-!
Fold passes that take one byte after the other.
-/

namespace Highlight

open LineIndex

/--
Passes that do the same at each byte, as long as the sweep fulfils `holds`, come to the same.
-/
theorem Sweep.over_congr {span : Span} {step step' : Sweep → Nat → Sweep} (holds : Sweep → Prop) {sweep : Sweep}
    (hstep : ∀ sweep pos, holds sweep → span.start ≤ pos → step sweep pos = step' sweep pos ∧ holds (step' sweep pos))
    (hsweep : holds sweep) : sweep.over span step = sweep.over span step' := by
  unfold Sweep.over
  have hmem : ∀ pos ∈ List.range' span.start span.length, span.start ≤ pos := by
    intro pos hpos
    exact (List.mem_range'_1.mp hpos).1
  generalize List.range' span.start span.length = positions at hmem
  induction positions generalizing sweep with
  | nil => rfl
  | cons pos positions ih =>
    obtain ⟨heq, hholds⟩ := hstep sweep pos hsweep (hmem pos List.mem_cons_self)
    rw [List.foldl_cons, List.foldl_cons, heq]
    exact ih hholds (fun pos' hpos' => hmem pos' (List.mem_cons_of_mem pos hpos'))

/--
A sweep with the position of the next byte.
-/
structure ByteScan where
  sweep : Sweep
  pos : Nat

/--
Whether a pass up to `stop` closes a line at `pos`: where the line ends, and, if it is `closingLast`, where the
pass ends.
-/
def Document.closesLine (doc : Document) (closingLast : Bool) (stop pos : Nat) : Bool :=
  endsLine doc.text pos || (closingLast && pos + 1 == stop)

/--
In front of a line start, lines are closed where they end.
-/
theorem Document.closesLine_eq (doc : Document) {pos pos' stop : Nat} (hpos : startsLine doc.text pos' = true)
    (hlt : pos < pos') (hstop : pos' ≤ stop) (closingLast : Bool) :
    doc.closesLine closingLast stop pos = endsLine doc.text pos := by
  unfold closesLine
  by_cases hlast : pos + 1 = stop
  . have hends := endsLine_of_startsLine hpos (by omega)
    rw [show pos' - 1 = pos by omega] at hends
    rw [hends, Bool.true_or]
  . rw [beq_false_of_ne hlast, Bool.and_false, Bool.or_false]

/--
What a pass over bytes does at each of them: what it counts there in a pass up to some position, whether it
closes a last line that no terminator ends, and how it stores levels.
-/
structure ByteFold where
  count : Nat → Sweep → Nat → Sweep
  closingLast : Bool
  atElse : Bool
  compact : Bool

namespace ByteFold

variable (m : ByteFold)

def closes (stop : Nat) (sweep : Sweep) (pos : Nat) : Bool :=
  sweep.doc.closesLine m.closingLast stop pos

def foldByte (stop : Nat) (sweep : Sweep) (pos : Nat) : Sweep :=
  let counted := m.count stop sweep pos
  (if m.closes stop sweep pos then counted.closeLine (counted.depth m.atElse) m.compact else counted).see
    (sweep.doc.byteAt pos 0x20)

def folding : Folding ByteScan :=
  { start := fun doc pos => ⟨.start doc (doc.lineOf pos), pos⟩
    step := fun stop s => ⟨m.foldByte stop s.sweep s.pos, s.pos + 1⟩
    sweep := (·.sweep)
    pos := (·.pos)
    count := fun stop s => m.count stop s.sweep s.pos
    closes := fun stop s => m.closes stop s.sweep s.pos
    restyle := fun styles lineStates s => ⟨s.sweep.restyle styles lineStates, s.pos⟩
    atElse := m.atElse
    compact := m.compact }

/--
Counting writes nothing, stays on its line, and goes by no mark behind the next line start.
-/
structure Lawful (m : ByteFold) : Prop where
  doc_count : ∀ stop sweep pos, (m.count stop sweep pos).doc = sweep.doc
  line_count : ∀ stop sweep pos, (m.count stop sweep pos).line = sweep.line
  count_restyle : ∀ {styles lineStates pos pos' stop} {sweep : Sweep}, sweep.doc.WellFormed →
    sweep.doc.AgreesBelow styles lineStates pos' → startsLine sweep.doc.text pos' = true → pos < pos' → pos' ≤ stop →
    sweep.line = sweep.doc.lineOf pos →
    m.count pos' (sweep.restyle styles lineStates) pos = (m.count stop sweep pos).restyle styles lineStates

variable {m : ByteFold}

theorem Lawful.foldByte_restyle (h : m.Lawful) {styles : Array Style} {lineStates : Array LineState} {pos pos' stop : Nat}
    {sweep : Sweep} (hwell : sweep.doc.WellFormed) (hagree : sweep.doc.AgreesBelow styles lineStates pos')
    (hpos : startsLine sweep.doc.text pos' = true) (hlt : pos < pos') (hstop : pos' ≤ stop)
    (hline : sweep.line = sweep.doc.lineOf pos) :
    m.foldByte pos' (sweep.restyle styles lineStates) pos = (m.foldByte stop sweep pos).restyle styles lineStates := by
  have hcloses : m.closes pos' (sweep.restyle styles lineStates) pos = m.closes stop sweep pos :=
    ((sweep.doc.restyle styles lineStates).closesLine_eq hpos hlt (Nat.le_refl pos') _).trans
      (sweep.doc.closesLine_eq hpos hlt hstop _).symm
  unfold foldByte
  dsimp only
  rw [h.count_restyle hwell hagree hpos hlt hstop hline, hcloses, ← Sweep.see_restyle]
  split
  . rfl
  . rfl

theorem Lawful.folding (h : m.Lawful) : m.folding.Lawful where
  pos_start := fun _ _ => rfl
  sweep_start := fun _ _ => rfl
  pos_lt := fun _ s => Nat.lt_succ_self s.pos
  endsLine_of_lt := by
    intro _ s q hq hq'
    have hq : s.pos < q := hq
    have hq' : q < s.pos + 1 := hq'
    omega
  pos_of_endsLine := fun _ _ _ => rfl
  closes_of_endsLine := by
    intro stop s hends
    show (endsLine s.sweep.doc.text s.pos || _) = true
    rw [show endsLine s.sweep.doc.text s.pos = true from hends, Bool.true_or]
  endsLine_of_closes := by
    intro stop s hcloses
    rcases Bool.or_eq_true _ _ ▸ hcloses with hends | hlast
    . exact .inr hends
    . exact .inl (beq_iff_eq.mp (Bool.and_eq_true _ _ ▸ hlast).2)
  doc_count := fun stop s => h.doc_count stop s.sweep s.pos
  line_count := fun stop s => h.line_count stop s.sweep s.pos
  sweep_step := fun _ _ => rfl
  step_eq_start := by
    intro stop s _ hstart
    exact congrArg (ByteScan.mk · (s.pos + 1)) hstart
  doc_restyle := fun _ _ _ => rfl
  pos_restyle := fun _ _ _ => rfl
  start_restyle := fun _ _ => rfl
  step_restyle := by
    intro _ _ _ _ s hwell hagree hpos hlt hstop hline
    exact congrArg (ByteScan.mk · (s.pos + 1)) (h.foldByte_restyle hwell hagree hpos hlt hstop hline)

theorem sweep_repeatWhile (stop length : Nat) (s : ByteScan) (hstop : s.pos + length = stop) :
    (repeatWhile (m.folding.more stop) (m.folding.step stop) length s).sweep
      = (List.range' s.pos length).foldl (m.foldByte stop) s.sweep := by
  induction length generalizing s with
  | zero => rfl
  | succ length ih =>
    rw [repeatWhile, if_pos (Folding.more_iff.mpr (show s.pos < stop by omega)), List.range'_succ, List.foldl_cons]
    exact ih ⟨m.foldByte stop s.sweep s.pos, s.pos + 1⟩ (show s.pos + 1 + length = stop by omega)

theorem fold_eq_over (doc : Document) {start stop : Nat} (hle : start ≤ stop) :
    m.folding.fold doc start stop
      = ((Sweep.start doc (doc.lineOf start)).over (doc.spanOf start stop) (m.foldByte stop)).doc :=
  congrArg Sweep.doc (sweep_repeatWhile stop (stop - start) (m.folding.start doc start)
    (show start + (stop - start) = stop by omega))

end ByteFold

end Highlight
