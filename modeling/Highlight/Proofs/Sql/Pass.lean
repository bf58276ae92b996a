import Highlight.Proofs.Iteration
import Highlight.Proofs.Sql.Alike

/-!
A pass over SQL as the run of its scan.
-/

namespace Highlight.Sql

open LineIndex

/--
Colouring the whole lines from `start` up to `stop`.
-/
def pass (keywords : Keywords) (doc : Document) (start stop : Nat) : Document :=
  let span := doc.spanOf start stop
  let s := repeatWhile (·.pos < stop) (Scan.step (.read keywords doc.options span)) (stop - start) (Scan.ofSpan span doc)
  (s.pen.colourTo stop s.state).doc

/--
The step of a pass from `start` on. It does not depend on where the pass ends.
-/
def stepFrom (keywords : Keywords) (doc : Document) (start : Nat) : Scan → Scan :=
  Scan.step (.read keywords doc.options (doc.spanOf start start))

/--
The run of a pass comes by from one scan to the other.
-/
def Run (keywords : Keywords) (doc : Document) (start stop : Nat) : Scan → Scan → Prop :=
  Iterates (fun s => decide (s.pos < stop)) (stepFrom keywords doc start)

/--
The scan that a pass from `start` on begins with.
-/
def Scan.begin (doc : Document) (start : Nat) : Scan :=
  { pen := ⟨doc, start⟩, pos := start, state := doc.styleBefore start, prev := Code.blank }

theorem colour_eq_pass {doc : Document} {span : Span} {start stop : Nat} (hle : start ≤ stop)
    (hspan : doc.wholeLines span = doc.spanOf start stop) (keywords : Keywords) :
    colour keywords span doc = pass keywords doc start stop := by
  have hstop : (doc.spanOf start stop).stop = stop := by
    show start + (stop - start) = stop
    omega
  unfold colour
  dsimp only
  rw [hspan, hstop]
  rfl

namespace Scan

variable {s : Scan}

theorem endsLine_of_atLead (h : s.atLead = true) : endsLine s.doc.text s.pos = false := by
  rw [Bool.eq_false_iff]
  intro hends
  obtain ⟨b, hb, hbreak⟩ := LineIndex.ascii_of_endsLine hends
  have hlead := s.doc.encoding.le_toNat_of_isLeadByte h
  rw [Document.byteAt, hb] at hlead
  have : 0x81 ≤ b.toNat := hlead
  omega

theorem onward_step (s : Scan) (settings : Settings) : s.pen.Onward (s.step settings).pen := by
  cases hlead : s.atLead with
  | true =>
    rw [step_of_lead hlead]
    exact .refl s.pen
  | false =>
    rw [step_of_turn hlead]
    exact (turn_spec s settings).onward

theorem pos_step_cases (s : Scan) (settings : Settings) :
    (s.step settings).pos = s.pos + 1 ∨ (s.step settings).pos = s.pos + 2 ∧ endsLine s.doc.text s.pos = false := by
  cases hlead : s.atLead with
  | true =>
    rw [step_of_lead hlead]
    exact .inr ⟨rfl, endsLine_of_atLead hlead⟩
  | false =>
    rw [step_of_turn hlead]
    rcases (turn_spec s settings).pos_cases with hpos | ⟨hpos, hcur⟩
    . exact .inl (congrArg (· + 1) hpos)
    . exact .inr ⟨congrArg (· + 1) hpos, endsLine_cur hcur⟩

/--
A step does not go over a line start.
-/
theorem pos_step_le (settings : Settings) {pos : Nat} (hpos : startsLine s.doc.text pos = true) (hlt : s.pos < pos) :
    (s.step settings).pos ≤ pos := by
  rcases s.pos_step_cases settings with heq | ⟨heq, hcur⟩
  . omega
  . have hne : pos ≠ s.pos + 1 := by
      intro hpos'
      rw [hpos', startsLine_succ, hcur] at hpos
      cases hpos
    omega

theorem segment_step_le (settings : Settings) (hs : s.pen.segment ≤ s.pos) :
    (s.step settings).pen.segment ≤ (s.step settings).pos := by
  cases hlead : s.atLead with
  | true =>
    rw [step_of_lead hlead]
    exact Nat.le_trans hs (Nat.le_add_right _ _)
  | false =>
    rw [step_of_turn hlead]
    exact (turn_spec s settings).segment_le hs

end Scan

section Run

variable {keywords : Keywords} {doc : Document} {start stop : Nat} {s t : Scan}

theorem Run.onward (h : Run keywords doc start stop s t) : s.pen.Onward t.pen :=
  h.invariant (fun t => s.pen.Onward t.pen) (fun t _ ht => ht.trans (t.onward_step _)) (.refl _)

theorem Run.segment_le (h : Run keywords doc start stop s t) (hs : s.pen.segment ≤ s.pos) : t.pen.segment ≤ t.pos :=
  h.invariant (fun t => t.pen.segment ≤ t.pos) (fun _ _ ht => Scan.segment_step_le _ ht) hs

theorem Run.pos_le (h : Run keywords doc start stop s t) (hstop : startsLine s.doc.text stop = true) (hle : s.pos ≤ stop) :
    t.pos ≤ stop := by
  refine (h.invariant (fun t => t.pos ≤ stop ∧ s.doc.SameSource t.doc) ?_ ⟨hle, .refl _⟩).1
  intro t hmore ht
  have hstop' : startsLine t.doc.text stop = true := by rwa [ht.2.text]
  exact ⟨Scan.pos_step_le _ hstop' (of_decide_eq_true hmore), ht.2.trans (t.onward_step _).sameSource⟩

/--
A run that ends earlier is the first part of a longer one.
-/
theorem Run.mono {stop' : Nat} (h : Run keywords doc start stop s t) (hle : stop ≤ stop') : Run keywords doc start stop' s t := by
  refine Iterates.mono h ?_
  intro s hmore
  have := of_decide_eq_true hmore
  exact decide_eq_true (by omega)

/--
Runs whose steps correspond.
-/
theorem Run.lockstep {R : Scan → Scan → Prop} {doc' : Document} {start' stop' : Nat} {s' t' : Scan}
    (h : Run keywords doc' start' stop' s' t') (hmore : ∀ s s', R s s' → s'.pos < stop' → s.pos < stop)
    (hstep : ∀ s s', R s s' → s.pos < stop → R (stepFrom keywords doc start s) (stepFrom keywords doc' start' s'))
    (hR : R s s') : ∃ t, Run keywords doc start stop s t ∧ R t t' := by
  refine Iterates.lockstep h ?_ ?_ hR
  . intro s s' hR hlt
    exact decide_eq_true (hmore s s' hR (of_decide_eq_true hlt))
  . intro s s' hR hlt
    exact hstep s s' hR (hmore s s' hR (of_decide_eq_true hlt))

theorem exists_run (keywords : Keywords) (doc : Document) (start stop : Nat) :
    ∃ t, Run keywords doc start stop (.begin doc start) t ∧ stop ≤ t.pos
      ∧ pass keywords doc start stop = (t.pen.colourTo stop t.state).doc := by
  have hstep : Scan.step (.read keywords doc.options (doc.spanOf start stop)) = stepFrom keywords doc start := by
    funext s
    rfl
  have hlower (s : Scan) (hmore : decide (s.pos < stop) = true) :
      stop - (stepFrom keywords doc start s).pos < stop - s.pos := by
    have hlt := of_decide_eq_true hmore
    rcases s.pos_step_cases (.read keywords doc.options (doc.spanOf start start)) with heq | ⟨heq, _⟩
    . rw [stepFrom, heq]
      omega
    . rw [stepFrom, heq]
      omega
  have hend := more_repeatWhile _ _ (fun s : Scan => stop - s.pos) hlower (stop - start) (.begin doc start) (Nat.le_refl _)
  refine ⟨_, iterates_repeatWhile _ _ (stop - start) _, Nat.le_of_not_lt (of_decide_eq_false hend), ?_⟩
  unfold pass
  dsimp only
  rw [hstep]
  rfl

/--
What a pass leaves, wherever its run comes to its end.
-/
theorem Run.pass_eq (hrun : Run keywords doc start stop (.begin doc start) t) (hend : stop ≤ t.pos) :
    pass keywords doc start stop = (t.pen.colourTo stop t.state).doc := by
  obtain ⟨t', hrun', hend', heq⟩ := exists_run keywords doc start stop
  rw [heq, hrun'.end_unique (decide_eq_false (by omega)) hrun (decide_eq_false (by omega))]

end Run

end Highlight.Sql
