import Highlight.Proofs.Cursor.Walk
import Highlight.Proofs.Iteration
import Highlight.Tcl.Colour

/-!
Every pass of Tcl ends. A step that asks for another one at the same character has gone forward itself, from a cursor in front of
the end of its line. So it comes closer to the end of the span, or, once the span is over, stands on the end of a line, where no
step asks for another one. Between the braces of a substitution, a step past the span still asks to go forward, until the cursor
stands on the end of a line as well.
-/

namespace Highlight

namespace Cursor

/--
A cursor whose characters have widths, so that it goes on when it goes forward.
-/
structure Wide (c : Cursor) : Prop where
  width_pos : 0 < c.width
  nextWidth_pos : 0 < c.nextWidth

/--
A cursor has come from another one: it has not gone back, and if it stood on the end of a line past its span, it still does.
-/
structure Leads (c c' : Cursor) : Prop where
  wide : c'.Wide
  stop : c'.stop = c.stop
  pos_le : c.pos ≤ c'.pos
  atLineEnd : c.more = false → c.atLineEnd = true → c'.atLineEnd = true

/--
A cursor has gone forward from another one: its place is behind that, or it stands on the end of a line past its span.
-/
structure Onward (c c' : Cursor) : Prop extends Leads c c' where
  pos_lt : c.more = true → c.pos < c'.pos
  pastEnd : c.more = false → c'.atLineEnd = true

variable {c c' c'' : Cursor}

theorem more_of_leads (hstop : c'.stop = c.stop) (hpos : c.pos ≤ c'.pos) (hmore : c'.more = true) : c.more = true := by
  simp only [more, decide_eq_true_eq] at hmore ⊢
  omega

theorem wide_readNext (h : 0 < c.width) : c.readNext.Wide :=
  ⟨h, Encoding.decodeAt_width_pos _ _ _⟩

theorem wide_start (doc : Document) (span : Span) : (start doc span).Wide :=
  wide_readNext (Encoding.decodeAt_width_pos _ _ _)

namespace Leads

theorem refl (h : c.Wide) : Leads c c :=
  ⟨h, rfl, Nat.le_refl _, fun _ => id⟩

theorem past (h : Leads c c') (hmore : c.more = false) : c'.more = false := by
  rw [Bool.eq_false_iff] at hmore ⊢
  exact fun hmore' => hmore (more_of_leads h.stop h.pos_le hmore')

theorem trans (h : Leads c c') (h' : Leads c' c'') : Leads c c'' where
  wide := h'.wide
  stop := h'.stop.trans h.stop
  pos_le := Nat.le_trans h.pos_le h'.pos_le
  atLineEnd hmore hend := h'.atLineEnd (h.past hmore) (h.atLineEnd hmore hend)

theorem setState (h : Leads c c') (state : Style) : Leads c (c'.setState state) :=
  ⟨⟨h.wide.width_pos, h.wide.nextWidth_pos⟩, h.stop, h.pos_le, h.atLineEnd⟩

theorem changeState (h : Leads c c') (state : Style) : Leads c (c'.changeState state) :=
  ⟨⟨h.wide.width_pos, h.wide.nextWidth_pos⟩, h.stop, h.pos_le, h.atLineEnd⟩

theorem setLevel (h : Leads c c') (line : Nat) (level : Level) : Leads c (c'.setLevel line level) :=
  ⟨⟨h.wide.width_pos, h.wide.nextWidth_pos⟩, h.stop, h.pos_le, h.atLineEnd⟩

theorem setLineState (h : Leads c c') (line : Nat) (state : LineState) : Leads c (c'.setLineState line state) :=
  ⟨⟨h.wide.width_pos, h.wide.nextWidth_pos⟩, h.stop, h.pos_le, h.atLineEnd⟩

end Leads

theorem onward_forward (h : c.Wide) : Onward c c.forward := by
  cases hmore : c.more with
  | true =>
    have hpos := pos_forward hmore
    have hwidth := h.width_pos
    have hin (hpast : c.more = false) : False := by
      rw [hmore] at hpast
      cases hpast
    refine ⟨⟨?_, stop_forward c, by omega, fun hpast => (hin hpast).elim⟩, fun _ => by omega, fun hpast => (hin hpast).elim⟩
    rw [forward_of_more hmore]
    exact wide_readNext h.nextWidth_pos
  | false =>
    have heq : c.forward = { c with
        atLineStart := false
        atLineEnd := true
        prev := Code.blank
        cur := Code.blank
        next := Code.blank } := by
      rw [forward, hmore]
      rfl
    have hpast (hin : c.more = true) : False := by
      rw [hmore] at hin
      cases hin
    rw [heq]
    exact ⟨⟨⟨h.width_pos, h.nextWidth_pos⟩, rfl, Nat.le_refl _, fun _ _ => rfl⟩, fun hin => (hpast hin).elim, fun _ => rfl⟩

theorem Leads.forward (h : Leads c c') : Onward c c'.forward where
  toLeads := h.trans (onward_forward h.wide).toLeads
  pos_lt hmore := by
    have hforward := onward_forward h.wide
    cases hmore' : c'.more with
    | true => exact Nat.lt_of_le_of_lt h.pos_le (hforward.pos_lt hmore')
    | false =>
      have hle := hforward.pos_le
      have hstop := h.stop
      simp only [more, decide_eq_true_eq, decide_eq_false_iff_not] at hmore hmore'
      omega
  pastEnd hmore := (onward_forward h.wide).pastEnd (h.past hmore)

theorem Onward.setState (h : Onward c c') (state : Style) : Onward c (c'.setState state) :=
  ⟨h.toLeads.setState state, h.pos_lt, h.pastEnd⟩

/--
The whole lines of a span end behind it.
-/
theorem le_walkEnd {doc : Document} (hdoc : doc.WellFormed) (span : Span) :
    min (span.start + span.length) doc.size ≤ walkEnd doc span := by
  have hceil : min (min span.start doc.size + span.length) doc.size ≤ (doc.wholeLines span).stop := by
    rw [hdoc.wholeLines_stop]
    exact LineIndex.le_lineCeil (Nat.min_le_right _ _)
  unfold walkEnd
  split <;> omega

end Cursor

namespace Tcl

open Cursor

/--
What a step inside of a span comes to: it leaves the cursor for the next step, or it has gone forward itself.
-/
inductive Turns (c : Cursor) : Scan × Flow → Prop where
  | forward {s : Scan} : c.Leads s.cursor → Turns c (s, .forward)
  | again {s : Scan} : c.Onward s.cursor → Turns c (s, .again)

/--
What a step comes to. At the end of the span it may still go forward to the end of a line.
-/
inductive Steps (atEnd : Bool) (c : Cursor) : Scan × Flow → Prop where
  | forward {s : Scan} : c.Leads s.cursor → (atEnd = true → s.cursor.atLineEnd = false) → Steps atEnd c (s, .forward)
  | again {s : Scan} : c.Onward s.cursor → atEnd = false → (c.more = false → c.atLineEnd = false) → Steps atEnd c (s, .again)
  | stop {s : Scan} : c.Leads s.cursor → atEnd = true → Steps atEnd c (s, .stop)

theorem Turns.ite {c : Cursor} {r r' : Scan × Flow} {p : Prop} [Decidable p] (hr : Turns c r) (hr' : Turns c r') :
    Turns c (if p then r else r') := by
  split
  . exact hr
  . exact hr'

theorem Turns.steps {c : Cursor} {r : Scan × Flow} (h : Turns c r) (hend : c.more = false → c.atLineEnd = false) :
    Steps false c r := by
  cases h with
  | forward h => exact .forward h nofun
  | again h => exact .again h rfl hend

namespace Scan

variable {c : Cursor} {s : Scan} (h : c.Leads s.cursor)
include h

theorem leads_leaveBraces : c.Leads s.leaveBraces.cursor := by
  unfold leaveBraces
  dsimp only
  split
  . exact ((h.setState _).forward.setState _).toLeads
  . exact h.setState _

theorem leads_leaveSubstitution : c.Leads s.leaveSubstitution.cursor := by
  unfold leaveSubstitution
  dsimp only
  split
  . exact h
  . split
    . split
      . exact h
      . exact h.setState _
    . split
      . exact h
      . exact h.setState _

theorem leads_leave (keywords : Keywords) : c.Leads (s.leave keywords).cursor := by
  unfold leave
  dsimp only
  split
  . exact leads_leaveBraces h
  . split
    . exact h
    . split
      . exact leads_leaveSubstitution h
      . split
        . exact (h.changeState _).setState _
        . exact h

theorem leads_endLine (foldComments : Bool) : c.Leads (s.endLine foldComments).cursor := by
  have hcursor : (s.foldComment foldComments).cursor = s.cursor := by
    unfold foldComment
    split
    . split <;> rfl
    . split <;> rfl
  unfold endLine
  dsimp only
  rw [hcursor]
  exact ((h.setLevel _ _).setLineState _ _).setState _

theorem turns_startSubstitution : Turns c s.startSubstitution := by
  unfold startSubstitution
  dsimp only
  exact .ite (.again ((h.forward.setState _).toLeads.forward.setState _)) (.forward (h.setState _))

theorem turns_start : Turns c s.start := by
  have hsame : Turns c (s, .forward) := .forward h
  unfold start
  dsimp only
  refine .ite (.forward (h.setState _)) (.ite (.forward (h.setState _)) (.ite (.forward (h.setState _)) ?_))
  refine .ite (.forward (h.setState _)) (.ite (.forward (h.setState _)) (.ite (.forward (h.setState _)) ?_))
  refine .ite (.forward (h.setState _)) (.ite (.forward h) (.ite (turns_startSubstitution h) ?_))
  exact .ite (.forward (h.setState _)) hsame

theorem leads_startComment : c.Leads s.startComment.cursor := by
  unfold startComment
  split
  . split
    . exact h.setState _
    . split
      . exact h.setState _
      . exact h
  . exact h

theorem turns_enter : Turns c s.enter := by
  have hcomment := leads_startComment h
  unfold enter
  dsimp only
  exact .ite (.forward hcomment) (.ite (turns_start hcomment) (.forward hcomment))

theorem turns_stepInQuote : Turns c s.stepInQuote := by
  unfold stepInQuote
  dsimp only
  exact .ite (.again (h.forward.setState _)) (.ite (.again ((h.setState _).forward.setState _)) (.forward h))

theorem turns_stepInState : Turns c s.stepInState := by
  unfold stepInState
  dsimp only
  split
  . exact turns_stepInQuote h
  . split
    . exact turns_enter h
    . exact turns_enter (h.setState _)
  . exact turns_enter (h.setState _)
  . exact turns_enter h

theorem turns_stepInLine : Turns c s.stepInLine := by
  unfold stepInLine
  dsimp only
  refine .ite ?_ (turns_stepInState h)
  split
  . exact .forward (h.setState _)
  . exact turns_stepInState (h.setState _)
  . exact turns_stepInState (h.setState _)

end Scan

/--
A step asks for another one at the same character only inside of the span, and past it only from a cursor that stood in front of
the end of a line.
-/
theorem steps_step {s : Scan} (h : s.cursor.Wide) (settings : Settings) (atEnd : Bool) :
    Steps atEnd s.cursor (s.step settings atEnd) := by
  have hleave := Scan.leads_leave (.refl h) settings.keywords
  unfold Scan.step
  dsimp only
  generalize s.leave settings.keywords = t at hleave
  split
  . next hbraces =>
    rw [Bool.and_eq_true, Bool.not_eq_true'] at hbraces
    exact .forward hleave fun _ => hbraces.2
  . split
    . next hend => exact .stop hleave hend
    . next hin =>
      rw [Bool.not_eq_true] at hin
      rw [hin]
      split
      . exact .forward (Scan.leads_endLine hleave _) nofun
      . next hopen =>
        split
        . exact .forward hleave nofun
        . refine (Scan.turns_stepInLine hleave).steps fun hmore => ?_
          rw [Bool.eq_false_iff]
          exact fun hclosed => hopen (hleave.atLineEnd hmore hclosed)

/--
What holds between two steps of a pass over a span that ends at `stop`.
-/
structure Walk.OnSpan (stop : Nat) (w : Walk) : Prop where
  wide : w.scan.cursor.Wide
  stop : w.scan.cursor.stop = stop
  past : w.atEnd = true ∨ w.stopped = true → w.scan.cursor.more = false

/--
The steps that are left: one for each character and, once the span is over, one to the end of a line, one until it is known that
the span is over, and the one that stops.
-/
def Walk.left (w : Walk) : Nat :=
  if w.stopped then 0
  else if w.scan.cursor.more then w.scan.cursor.remaining + 3
  else (if w.scan.cursor.atLineEnd then 1 else 2) + (if w.atEnd then 0 else 1)

namespace Walk

variable {w : Walk} {stop : Nat}

theorem left_of_more (hgoes : w.stopped = false) (hmore : w.scan.cursor.more = true) : w.left = w.scan.cursor.remaining + 3 := by
  rw [left, hgoes, hmore]
  rfl

theorem left_of_past (hgoes : w.stopped = false) (hpast : w.scan.cursor.more = false) :
    w.left = (if w.scan.cursor.atLineEnd then 1 else 2) + (if w.atEnd then 0 else 1) := by
  rw [left, hgoes, hpast]
  rfl

/--
A step that has gone forward inside of the span leaves fewer steps.
-/
theorem left_lt_of_more {w' : Walk} (hgoes : w.stopped = false) (hmore : w.scan.cursor.more = true)
    (hgoes' : w'.stopped = false) (honward : w.scan.cursor.Onward w'.scan.cursor) : w'.left < w.left := by
  have hlt : w.scan.cursor.pos < w.scan.cursor.stop := of_decide_eq_true hmore
  have hfewer := remaining_lt hlt honward.stop (honward.pos_lt hmore)
  rw [left_of_more hgoes hmore]
  cases hmore' : w'.scan.cursor.more with
  | true =>
    rw [left_of_more hgoes' hmore']
    omega
  | false =>
    rw [left_of_past hgoes' hmore']
    split <;> split <;> omega

theorem OnSpan.next (h : w.OnSpan stop) (hgoes : w.stopped = false) (settings : Settings) :
    (w.next settings).OnSpan stop ∧ (w.next settings).left < w.left := by
  have hstep := steps_step h.wide settings w.atEnd
  unfold Walk.next
  generalize w.scan.step settings w.atEnd = r at hstep
  cases hstep with
  | @forward s hleads hend =>
    have honward := hleads.forward
    refine ⟨⟨honward.wide, honward.stop.trans h.stop, ?_⟩, ?_⟩
    . rintro (hpast | hstopped)
      . have hpast : (!s.cursor.forward.more) = true := hpast
        rwa [Bool.not_eq_true'] at hpast
      . cases hstopped
    . cases hmore : w.scan.cursor.more with
      | true => exact left_lt_of_more hgoes hmore rfl honward
      | false =>
        have hpast : s.cursor.forward.more = false := honward.past hmore
        have hnew : (ofScan (s.withCursor s.cursor.forward)).left = 1 := by
          rw [left_of_past rfl hpast]
          show (if s.cursor.forward.atLineEnd then 1 else 2) + (if !s.cursor.forward.more then 0 else 1) = 1
          rw [honward.pastEnd hmore, hpast]
          rfl
        rw [hnew, left_of_past hgoes hmore]
        cases hatEnd : w.atEnd with
        | false => split <;> exact Nat.lt_add_left_iff_pos.mpr (by decide)
        | true =>
          have hopen : w.scan.cursor.atLineEnd = false := by
            rw [Bool.eq_false_iff]
            intro hclosed
            have hinner := hend hatEnd
            rw [hleads.atLineEnd hmore hclosed] at hinner
            cases hinner
          rw [hopen]
          decide
  | @again s honward hin hopen =>
    refine ⟨⟨honward.wide, honward.stop.trans h.stop, ?_⟩, ?_⟩
    . rintro (hpast | hstopped)
      . rw [hin] at hpast
        cases hpast
      . rw [hgoes] at hstopped
        cases hstopped
    . cases hmore : w.scan.cursor.more with
      | true => exact left_lt_of_more hgoes hmore hgoes honward
      | false =>
        have hnew : ({ w with scan := s } : Walk).left = 2 := by
          rw [left_of_past (w := { w with scan := s }) hgoes (honward.past hmore)]
          show (if s.cursor.atLineEnd then 1 else 2) + (if w.atEnd then 0 else 1) = 2
          rw [honward.pastEnd hmore, hin]
          rfl
        rw [hnew, left_of_past hgoes hmore, hopen hmore, hin]
        decide
  | @stop s hleads hend =>
    refine ⟨⟨hleads.wide, hleads.stop.trans h.stop, fun _ => hleads.past (h.past (.inl hend))⟩, ?_⟩
    have hzero : ({ w with scan := s, stopped := true } : Walk).left = 0 := rfl
    rw [hzero, left_of_past hgoes (h.past (.inl hend))]
    split
    . exact Nat.lt_of_lt_of_le Nat.one_pos (Nat.le_add_right _ _)
    . exact Nat.lt_of_lt_of_le Nat.two_pos (Nat.le_add_right _ _)

theorem onSpan_ofSpan (span : Span) (doc : Document) : (ofScan (.ofSpan span doc)).OnSpan (walkEnd doc span) := by
  have hcursor : ∃ pen : Pen, (Scan.ofSpan span doc).cursor = { Cursor.start doc span with pen } := by
    unfold Scan.ofSpan
    dsimp only
    split
    . exact ⟨_, rfl⟩
    . exact ⟨((Cursor.start doc span).setLevel 0 (Level.base ||| Level.headerFlag)).pen, rfl⟩
  obtain ⟨pen, hcursor⟩ := hcursor
  have hwide := Cursor.wide_start doc span
  refine ⟨?_, ?_, ?_⟩
  . show (Scan.ofSpan span doc).cursor.Wide
    rw [hcursor]
    exact ⟨hwide.width_pos, hwide.nextWidth_pos⟩
  . show (Scan.ofSpan span doc).cursor.stop = _
    rw [hcursor]
    exact stop_start doc span
  . rintro (hpast | hstopped)
    . rwa [ofScan, Bool.not_eq_true'] at hpast
    . cases hstopped

theorem left_ofScan_le (s : Scan) : (ofScan s).left ≤ s.cursor.remaining + 3 := by
  cases hmore : s.cursor.more with
  | true => exact Nat.le_of_eq (left_of_more rfl hmore)
  | false =>
    rw [left_of_past rfl hmore]
    split <;> split <;> omega

end Walk

/--
All passes end: after a step for each character and three more at most, a step stops, with the cursor at the end of the whole
lines of the span or past it. The bound of the loop is no restriction.
-/
theorem pass_ends (keywords : Keywords) (span : Span) (doc : Document) :
    let next := Walk.next (.read keywords doc.options)
    let first := Walk.ofScan (.ofSpan span doc)
    ∃ n ≤ first.scan.cursor.remaining + 3, (∀ m < n, (next^[m] first).stopped = false) ∧ (next^[n] first).stopped = true
      ∧ walkEnd doc span ≤ (next^[n] first).scan.cursor.pos
      ∧ (doc.WellFormed → min (span.start + span.length) doc.size ≤ (next^[n] first).scan.cursor.pos)
      ∧ colour keywords span doc = (next^[n] first).scan.cursor.complete := by
  intro next first
  have hleft : first.left ≤ first.scan.cursor.remaining + 3 := Walk.left_ofScan_le _
  have hstep : ∀ w : Walk, (!w.stopped) = true → w.OnSpan (walkEnd doc span) →
      (next w).OnSpan (walkEnd doc span) ∧ (next w).left < w.left := by
    intro w hgoes hw
    rw [Bool.not_eq_true'] at hgoes
    exact hw.next hgoes _
  have hfirst : first.OnSpan (walkEnd doc span) := Walk.onSpan_ofSpan span doc
  obtain ⟨n, hn, hgoes, hends, hlast, hrun⟩ := exists_iterate_of_invariant (Walk.OnSpan (walkEnd doc span)) Walk.left
    (fun w hgoes hw => (hstep w hgoes hw).1) (fun w hgoes hw => (hstep w hgoes hw).2) hfirst
  have hstopped : (next^[n] first).stopped = true := by simpa using hends
  have hpos : walkEnd doc span ≤ (next^[n] first).scan.cursor.pos := by
    have hpast := hlast.past (.inr hstopped)
    rw [← hlast.stop]
    simpa [Cursor.more] using hpast
  refine ⟨n, Nat.le_trans hn hleft, fun m hm => by simpa using hgoes m hm, hstopped, hpos,
    fun hdoc => Nat.le_trans (le_walkEnd hdoc span) hpos, ?_⟩
  show (repeatWhile (!·.stopped) next first.bound first).scan.cursor.complete = _
  rw [hrun first.bound (by unfold Walk.bound; omega)]

/--
A substitution with braces is open at the end of the span, where each step asks to go forward.
-/
theorem pass_ends_open_braces :
    let doc := Document.fresh "$\x7b\n$\x7ba".toUTF8.data .utf8 .empty
    let span : Span := ⟨3, 3, Style.bracedSubstitution⟩
    let next := Walk.next (.read #[.empty] doc.options)
    let first := Walk.ofScan (.ofSpan span doc)
    ∃ n ≤ 7, (next^[n] first).stopped = true ∧ 6 ≤ (next^[n] first).scan.cursor.pos := by
  intro doc span next first
  have hdoc : doc.WellFormed := Document.wellFormed_fresh "$\x7b\n$\x7ba".toUTF8.data .utf8 .empty
  obtain ⟨n, hn, _, hstopped, _, hpos, _⟩ := pass_ends #[.empty] span doc
  exact ⟨n, Nat.le_trans hn (by decide +kernel), hstopped, Nat.le_trans (by decide +kernel) (hpos hdoc)⟩

end Tcl

end Highlight
