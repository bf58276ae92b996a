import Highlight.Proofs.Cursor.OnLine
import Highlight.Proofs.Tcl.Walk

/-!
What a pass of Tcl does not look at, in the front of a line that goes on with what the line above has left open, and why a scan
has not seen anything visible on its line.
-/

namespace Highlight.Tcl

open LineIndex

variable {doc marks : Document} {line i : Nat} {above : Memory} {s : Scan} {r : Scan × Flow} {keywords : Keywords}

/--
No closing brace stands from `start` up to `stop`, but as a later byte of a character.
-/
def NoBrace (doc : Document) (start stop : Nat) : Prop :=
  ∀ i, start ≤ i → i < stop → doc.byteAt? i = some 0x7D → ∃ pos, start ≤ pos ∧ pos < i ∧ i < pos + (doc.decodeAt pos).2

/--
Where what is skipped in the front of a line ends: behind the first character of a comment that goes on, or behind the first
character after the brace that closes a substitution.
-/
inductive Skipped (doc : Document) (above : Memory) (line : Nat) : Nat → Prop where
  | comment : above.opened = .comment → Skipped doc above line (doc.lineStart line + (doc.decodeAt (doc.lineStart line)).2)
  | braces {pos : Nat} : above.inBraces = true → doc.lineStart line ≤ pos → doc.byteAt? pos = some 0x7D
    → NoBrace doc (doc.lineStart line) pos → Skipped doc above line (pos + 1 + (doc.decodeAt (pos + 1)).2)

/--
A byte that does not count as visible whatever it is. `above` is what the line goes on with and `behind` what it leaves: a word in
quotes or a substitution with braces that has not ended hides all of the line. `lead` is for the last character, if it takes the
terminator in.
-/
inductive Overlooked (doc : Document) (above behind : Memory) (line i : Nat) : Prop where
  | skipped {stop : Nat} : Skipped doc above line stop → i < stop → Overlooked doc above behind line i
  | quote : above.opened = .quote → behind.opened = .quote → Overlooked doc above behind line i
  | braces : above.inBraces = true → behind.inBraces = true → Overlooked doc above behind line i
  | lead {pos : Nat} : pos ≤ i → i + 1 < pos + (doc.decodeAt pos).2 → endsLine doc.text (pos + (doc.decodeAt pos).2 - 1) = true
    → Overlooked doc above behind line i

namespace Scan

/--
What is behind the scan on its line shows nothing, and nothing is open that would hide what comes.
-/
structure Blank (doc : Document) (above : Memory) (line : Nat) (s : Scan) : Prop where
  inBraces : s.inBraces = false
  escaped : s.escaped = false
  state : s.cursor.state = Style.default ∨ s.cursor.state = Style.comment
  bytes : ∀ i, doc.lineStart line ≤ i → i < s.cursor.pos →
    Code.isSpace (doc.byteAt i 0x20).toNat = true ∨ ∃ stop, Skipped doc above line stop ∧ i < stop

/--
Why a scan has not seen anything visible on its line.
-/
inductive Unseen (doc : Document) (above : Memory) (line : Nat) (s : Scan) : Prop where
  | begun : s.cursor.atLineStart = true → s.opened = above.opened → s.Blank doc above line → Unseen doc above line s
  | blank : s.cursor.atLineStart = false → s.Blank doc above line → Unseen doc above line s
  | quote : s.cursor.atLineStart = false → above.opened = .quote → s.inBraces = false → s.cursor.state = Style.inQuote
    → Unseen doc above line s
  | braces : above.inBraces = true → s.inBraces = true → s.escaped = false → NoBrace doc (doc.lineStart line) s.cursor.pos
    → Unseen doc above line s

/--
What a step within a line comes to.
-/
structure Goes (doc marks : Document) (line : Nat) (above : Memory) (r : Scan × Flow) : Prop where
  cursor : r.1.cursor.OnLine doc marks line
  inner : r.2 = .forward → r.1.cursor.atLineEnd = false
  unseen : r.1.visible = false → (after r).Unseen doc above line

namespace Goes

/--
Where something visible has been seen, only the cursor matters.
-/
theorem of_visible (hcursor : r.1.cursor.OnLine doc marks line) (hend : r.2 = .forward → r.1.cursor.atLineEnd = false)
    (hvisible : r.1.visible = true) : Goes doc marks line above r where
  cursor := hcursor
  inner := hend
  unseen := by
    rw [hvisible]
    exact nofun

theorem ite {p : Prop} [Decidable p] {r' : Scan × Flow} (hr : p → Goes doc marks line above r)
    (hr' : ¬ p → Goes doc marks line above r') : Goes doc marks line above (if p then r else r') := by
  split
  . next h => exact hr h
  . next h => exact hr' h

end Goes

section Step

variable (h : s.cursor.OnLine doc marks line) (hend : s.cursor.atLineEnd = false)
include h hend

theorem goes_startSubstitution (hvisible : s.visible = true) : Goes doc marks line above s.startSubstitution := by
  unfold startSubstitution
  dsimp only
  refine .ite (fun hbrace => .of_visible ?_ nofun hvisible) fun _ => .of_visible (h.setState _) (fun _ => hend) hvisible
  have hfirst := (h.forward hend).setState Style.operator
  refine (hfirst.forward ?_).setState _
  apply hfirst.onText.settled.atLineEnd_of_isInner
  rw [show (s.cursor.forward.setState Style.operator).cur = s.cursor.next from Cursor.cur_forward h.more]
  exact Code.isInner_of_is (by decide) hbrace

theorem goes_start (hvisible : s.visible = true) : Goes doc marks line above s.start := by
  have hoperator := h.setState Style.operator
  unfold start
  dsimp only
  refine .ite (fun _ => .of_visible (h.setState _) (fun _ => hend) hvisible) fun _ => ?_
  refine .ite (fun _ => .of_visible (h.setState _) (fun _ => hend) hvisible) fun _ => ?_
  refine .ite (fun _ => .of_visible (h.setState _) (fun _ => hend) hvisible) fun _ => ?_
  refine .ite (fun _ => .of_visible hoperator (fun _ => hend) hvisible) fun _ => ?_
  refine .ite (fun _ => .of_visible hoperator (fun _ => hend) hvisible) fun _ => ?_
  refine .ite (fun _ => .of_visible hoperator (fun _ => hend) hvisible) fun _ => ?_
  refine .ite (fun _ => .of_visible hoperator (fun _ => hend) hvisible) fun _ => ?_
  refine .ite (fun _ => .of_visible h (fun _ => hend) hvisible) fun _ => ?_
  refine .ite (fun _ => goes_startSubstitution h hend hvisible) fun _ => ?_
  exact .ite (fun _ => .of_visible (h.setState _) (fun _ => hend) hvisible) fun _ => .of_visible h (fun _ => hend) hvisible

omit h hend in
/--
A blank starts no token.
-/
theorem start_of_isSpace (hspace : s.cursor.cur.isSpace = true) : s.start = (s, .forward) := by
  have hnone : ∀ x ∈ Code.spaces, x.isDigit = false ∧ isWordStart x = false ∧ (x == Code.quote) = false ∧ x.isOneOf "[]" = false
      ∧ x.isOneOf "()" = false := by decide
  obtain ⟨hdigit, hword, hquote, hbracket, hparens⟩ := hnone _ (Code.mem_spaces hspace)
  have hsees : ∀ y : Char, y.toNat ∉ Code.spaces → s.cursor.sees y = false :=
    fun y hy => beq_eq_false_iff_ne.mpr fun heq => hy (heq ▸ Code.mem_spaces hspace)
  unfold start
  dsimp only
  rw [hsees '.' (by decide), hsees '\x7b' (by decide), hsees '\x7d' (by decide), hsees ';' (by decide), hsees '$' (by decide),
    hsees '-' (by decide), hdigit, hword, hquote, hbracket, hparens]
  rfl

/--
Over a blank, the scan goes on as it is.
-/
theorem Blank.forward (hblank : s.Blank doc above line) (hspace : s.cursor.cur.isSpace = true) :
    (s.withCursor s.cursor.forward).Unseen doc above line := by
  refine .blank (h.atLineStart_forward hend)
    { inBraces := hblank.inBraces
      escaped := hblank.escaped
      state := ?_
      bytes := ?_ }
  . show s.cursor.forward.state = _ ∨ s.cursor.forward.state = _
    rw [Cursor.state_forward h.more]
    exact hblank.state
  . intro i hle hlt
    have hlt : i < s.cursor.forward.pos := hlt
    rw [Cursor.pos_forward h.more] at hlt
    rcases Nat.lt_or_ge i s.cursor.pos with hbefore | hat
    . exact hblank.bytes i hle hbefore
    . exact .inl (h.isSpace_of_cur hspace hat hlt)

omit hend in
theorem onLine_startComment : s.startComment.cursor.OnLine doc marks line := by
  unfold startComment
  split
  . split
    . exact h.setState _
    . split
      . exact h.setState _
      . exact h
  . exact h

omit h hend in
/--
Starting a comment moves nothing, and needs a character that shows.
-/
theorem startComment_spec (s : Scan) : s.startComment.visible = s.visible ∧ s.startComment.cursor.cur = s.cursor.cur
    ∧ s.startComment.cursor.atLineEnd = s.cursor.atLineEnd ∧ (s.cursor.cur.isSpace = true → s.startComment = s) := by
  unfold startComment
  split
  . next hsees =>
    have hshown : ¬ s.cursor.cur.isSpace = true := by
      rw [Cursor.sees, Code.is, beq_iff_eq] at hsees
      rw [hsees]
      decide
    split
    . exact ⟨rfl, rfl, rfl, fun hspace => absurd hspace hshown⟩
    . split
      . exact ⟨rfl, rfl, rfl, fun hspace => absurd hspace hshown⟩
      . exact ⟨rfl, rfl, rfl, fun _ => rfl⟩
  . exact ⟨rfl, rfl, rfl, fun _ => rfl⟩

theorem goes_enter (hblank : s.visible = false → s.Blank doc above line) : Goes doc marks line above s.enter := by
  obtain ⟨hvisible, hcur, hend', hspace⟩ := startComment_spec s
  have hcomment := onLine_startComment h
  unfold enter
  dsimp only
  cases hshown : s.visible || !s.cursor.cur.isSpace with
  | true =>
    rw [hvisible, hcur, hshown]
    refine .ite (fun _ => .of_visible hcomment (fun _ => hend'.trans hend) rfl) fun _ => .ite (fun _ => ?_) fun _ => ?_
    . exact goes_start hcomment (hend'.trans hend) rfl
    . exact .of_visible hcomment (fun _ => hend'.trans hend) rfl
  | false =>
    obtain ⟨hunseen, hblankCur⟩ := Bool.or_eq_false_iff.mp hshown
    rw [Bool.not_eq_false'] at hblankCur
    rw [hspace hblankCur, hshown]
    -- Nothing has been seen before either, so this scan is the one in front of the step.
    have hsame : { s with visible := false } = s := by rw [← hunseen]
    have hgoes : Goes doc marks line above (s, .forward) :=
      ⟨h, fun _ => hend, fun hunseen => Blank.forward h hend (hblank hunseen) hblankCur⟩
    refine .ite (fun hbackslash => ?_) fun _ => .ite (fun _ => ?_) fun _ => ?_
    . rw [beq_iff_eq] at hbackslash
      rw [hbackslash] at hblankCur
      exact absurd hblankCur (by decide)
    . rwa [hsame, start_of_isSpace hblankCur]
    . rwa [hsame]

/--
In a word in quotes, only its end shows.
-/
theorem goes_stepInQuote (hstate : s.cursor.state = Style.inQuote)
    (hquote : s.visible = false → above.opened = .quote ∧ s.inBraces = false) : Goes doc marks line above s.stepInQuote := by
  unfold stepInQuote
  dsimp only
  refine .ite (fun _ => .of_visible ((h.forward hend).setState _) nofun rfl) fun _ => .ite (fun _ => ?_) fun _ => ?_
  . have hset := h.setState Style.operator
    refine ⟨(hset.forward hend).setState _, nofun, fun hunseen => ?_⟩
    obtain ⟨habove, hbraces⟩ := hquote hunseen
    exact .quote (hset.atLineStart_forward hend) habove hbraces rfl
  . refine ⟨h, fun _ => hend, fun hunseen => ?_⟩
    obtain ⟨habove, hbraces⟩ := hquote hunseen
    exact .quote (h.atLineStart_forward hend) habove hbraces ((Cursor.state_forward h.more).trans hstate)

theorem goes_stepInState (hunseen : s.visible = false → s.Blank doc above line
      ∨ s.cursor.state = Style.inQuote ∧ above.opened = .quote ∧ s.inBraces = false) : Goes doc marks line above s.stepInState := by
  have hplain : s.cursor.state ≠ Style.inQuote → s.visible = false → s.Blank doc above line :=
    fun hstate hvisible => (hunseen hvisible).resolve_right fun hquote => hstate hquote.1
  have hdefault : s.cursor.state ≠ Style.inQuote → Goes doc marks line above (s.withCursor (s.cursor.setState Style.default)).enter := by
    intro hstate
    refine goes_enter (h.setState _) hend fun hvisible => ?_
    have hblank := hplain hstate hvisible
    exact ⟨hblank.inBraces, hblank.escaped, .inl rfl, hblank.bytes⟩
  unfold stepInState
  dsimp only
  split
  . next hstate =>
    refine goes_stepInQuote h hend hstate fun hvisible => ?_
    rcases hunseen hvisible with hblank | hquote
    . rcases hblank.state with hother | hother
      . exact absurd (hstate.symm.trans hother) (by decide)
      . exact absurd (hstate.symm.trans hother) (by decide)
    . exact hquote.2
  . next hstate =>
    have hne : s.cursor.state ≠ Style.inQuote := by rw [hstate]; decide
    split
    . exact goes_enter h hend (hplain hne)
    . exact hdefault hne
  . next hstate => exact hdefault (by rw [hstate]; decide)
  . next hquote _ _ => exact goes_enter h hend (hplain hquote)

/--
The first step on a line goes on with what the line above has left open, if it is no substitution.
-/
theorem goes_stepInLine (hbraces : s.inBraces = false) (hunseen : s.visible = false → s.Unseen doc above line) :
    Goes doc marks line above s.stepInLine := by
  unfold stepInLine
  dsimp only
  refine .ite (fun hstart => ?_) fun hinner => goes_stepInState h hend fun hvisible => ?_
  . have hbegun : s.visible = false → s.opened = above.opened ∧ s.Blank doc above line := by
      intro hvisible
      cases hunseen hvisible with
      | begun _ hopened hblank => exact ⟨hopened, hblank⟩
      | blank hinner _ => exact absurd (hstart.symm.trans hinner) (by decide)
      | quote hinner _ _ _ => exact absurd (hstart.symm.trans hinner) (by decide)
      | braces _ hopen _ _ => exact absurd (hbraces.symm.trans hopen) (by decide)
    have hpos := h.pos_eq_lineStart hstart
    split
    . next hopened =>
      refine ⟨h.setState _, fun _ => hend, fun hvisible => ?_⟩
      obtain ⟨habove, hblank⟩ := hbegun hvisible
      have hset := h.setState Style.comment
      refine .blank (hset.atLineStart_forward hend) ⟨hbraces, hblank.escaped, .inr (Cursor.state_forward hset.more), ?_⟩
      intro i hle hlt
      have hlt : i < (s.cursor.setState Style.comment).forward.pos := hlt
      rw [Cursor.pos_forward hset.more] at hlt
      refine .inr ⟨_, .comment (habove.symm.trans hopened), ?_⟩
      rw [← hpos, ← h.onText.decodeAt_eq, ← h.onText.settled.width_eq]
      exact hlt
    . next hopened =>
      refine goes_stepInState (h.setState _) hend fun hvisible => .inr ⟨rfl, ?_, hbraces⟩
      exact (hbegun hvisible).1.symm.trans hopened
    . refine goes_stepInState (h.setState _) hend fun hvisible => .inl ?_
      obtain ⟨_, hblank⟩ := hbegun hvisible
      exact ⟨hbraces, hblank.escaped, .inl rfl, hblank.bytes⟩
  . cases hunseen hvisible with
    | begun hstart _ _ => exact absurd hstart hinner
    | blank _ hblank => exact .inl hblank
    | quote _ habove _ hstate => exact .inr ⟨hstate, habove, hbraces⟩
    | braces _ hopen _ _ => exact absurd (hbraces.symm.trans hopen) (by decide)

end Step

/--
Ending a word moves nothing, and a word in quotes does not end with one of its words.
-/
structure Left (doc marks : Document) (line : Nat) (s t : Scan) : Prop where
  rest : t = { s with cursor := t.cursor, commandExpected := t.commandExpected, parens := t.parens }
  place : t.cursor = { s.cursor with pen := t.cursor.pen, state := t.cursor.state }
  cursor : t.cursor.OnLine doc marks line
  state : t.cursor.state = s.cursor.state ∨ s.cursor.state ≠ Style.inQuote ∧ t.cursor.state = Style.default

theorem left_leave (h : s.cursor.OnLine doc marks line) (hbraces : s.inBraces = false) (keywords : Keywords) :
    s.Left doc marks line (s.leave keywords) := by
  have hdefault : s.cursor.state ≠ Style.inQuote → ∀ parens,
      s.Left doc marks line { s with parens, cursor := s.cursor.setState Style.default } :=
    fun hne _ => ⟨rfl, rfl, h.setState _, .inr ⟨hne, rfl⟩⟩
  unfold leave
  dsimp only
  rw [if_neg (by rw [hbraces]; decide)]
  split
  . exact ⟨rfl, rfl, h, .inl rfl⟩
  . split
    . next hstate =>
      have hne : s.cursor.state ≠ Style.inQuote := by
        rw [beq_iff_eq.mp hstate]
        decide
      unfold leaveSubstitution
      dsimp only
      split
      . exact ⟨rfl, rfl, h, .inl rfl⟩
      . split
        . split
          . exact ⟨rfl, rfl, h, .inl rfl⟩
          . exact hdefault hne s.parens
        . split
          . exact ⟨rfl, rfl, h, .inl rfl⟩
          . exact hdefault hne 0
    . split
      . refine ⟨rfl, rfl, (h.changeState _).setState _, ?_⟩
        show (if s.cursor.state == Style.inQuote then Style.inQuote else Style.default) = _ ∨ _
          ∧ (if s.cursor.state == Style.inQuote then Style.inQuote else Style.default) = _
        split
        . next hquote => exact .inl (beq_iff_eq.mp hquote).symm
        . next hquote => exact .inr ⟨fun heq => hquote (beq_iff_eq.mpr heq), rfl⟩
      . exact ⟨rfl, rfl, h, .inl rfl⟩

theorem Left.unseen {t : Scan} (h : s.Left doc marks line t) (hbraces : s.inBraces = false) (hunseen : s.Unseen doc above line) :
    t.Unseen doc above line := by
  have hstart : t.cursor.atLineStart = s.cursor.atLineStart := by rw [h.place]
  have hpos : t.cursor.pos = s.cursor.pos := by rw [h.place]
  have hopened : t.opened = s.opened := by rw [h.rest]
  have hblank : s.Blank doc above line → t.Blank doc above line := by
    intro hblank
    refine ⟨?_, ?_, ?_, ?_⟩
    . rw [h.rest]
      exact hblank.inBraces
    . rw [h.rest]
      exact hblank.escaped
    . rcases h.state with hsame | ⟨_, hdefault⟩
      . rw [hsame]
        exact hblank.state
      . exact .inl hdefault
    . rw [hpos]
      exact hblank.bytes
  cases hunseen with
  | begun hat hopen hfirst => exact .begun (hstart.trans hat) (hopened.trans hopen) (hblank hfirst)
  | blank hinner hfirst => exact .blank (hstart.trans hinner) (hblank hfirst)
  | quote hinner habove hclosed hstate =>
    refine .quote (hstart.trans hinner) habove ?_ ?_
    . rw [h.rest]
      exact hclosed
    . exact (h.state.resolve_right fun hother => hother.1 hstate).trans hstate
  | braces _ hopen _ _ => exact absurd (hbraces.symm.trans hopen) (by decide)

/--
In a substitution with braces: its end hides the next character, too.
-/
inductive Hidden (doc : Document) (above : Memory) (line : Nat) (t : Scan) : Prop where
  | inside : above.inBraces = true → t.inBraces = true → NoBrace doc (doc.lineStart line) (t.cursor.pos + t.cursor.width)
    → Hidden doc above line t
  | closed : t.inBraces = false → t.cursor.state = Style.default → Skipped doc above line (t.cursor.pos + t.cursor.width)
    → Hidden doc above line t

theorem leave_of_inBraces (hbraces : s.inBraces = true) (keywords : Keywords) : s.leave keywords = s.leaveBraces := by
  unfold leave
  dsimp only
  rw [if_pos hbraces]

theorem onLine_leaveBraces (h : s.cursor.OnLine doc marks line) : s.leaveBraces.cursor.OnLine doc marks line := by
  unfold leaveBraces
  dsimp only
  split
  . next hsees =>
    have hset := h.setState Style.operator
    exact (hset.forward (hset.onText.settled.atLineEnd_of_isInner (Cursor.isInner_of_sees (by decide) hsees))).setState _
  . exact h.setState _

theorem onLine_leave (h : s.cursor.OnLine doc marks line) (keywords : Keywords) : (s.leave keywords).cursor.OnLine doc marks line := by
  cases hbraces : s.inBraces with
  | true =>
    rw [leave_of_inBraces hbraces]
    exact onLine_leaveBraces h
  | false => exact (left_leave h hbraces keywords).cursor

theorem Unseen.hidden_leaveBraces (hunseen : s.Unseen doc above line) (h : s.cursor.OnLine doc marks line)
    (hbraces : s.inBraces = true) : s.leaveBraces.Hidden doc above line ∧ s.escaped = false := by
  obtain ⟨habove, hescaped, hnone⟩ : above.inBraces = true ∧ s.escaped = false ∧ NoBrace doc (doc.lineStart line) s.cursor.pos := by
    cases hunseen with
    | begun _ _ hblank => exact absurd (hbraces.symm.trans hblank.inBraces) (by decide)
    | blank _ hblank => exact absurd (hbraces.symm.trans hblank.inBraces) (by decide)
    | quote _ _ hclosed _ => exact absurd (hbraces.symm.trans hclosed) (by decide)
    | braces habove _ hescaped hnone => exact ⟨habove, hescaped, hnone⟩
  have hstart := h.lineStart_le_pos
  refine ⟨?_, hescaped⟩
  unfold leaveBraces
  dsimp only
  split
  . next hsees =>
    have hbyte := (h.onText.sees_iff (by decide)).mp hsees
    have hset := h.setState Style.operator
    have hpos := (hset.onText.pos_forward_of_isInner (Cursor.isInner_of_sees (by decide) hsees)).2
    have hforward := hset.onText.forward hset.pos_le
    refine .closed rfl rfl ?_
    show Skipped doc above line ((s.cursor.setState Style.operator).forward.pos + (s.cursor.setState Style.operator).forward.width)
    rw [hforward.settled.width_eq, hforward.decodeAt_eq, hpos]
    exact .braces habove hstart hbyte hnone
  . next hsees =>
    refine .inside habove hbraces fun i hle hlt hbyte => ?_
    have hlt : i < s.cursor.pos + s.cursor.width := hlt
    rcases Nat.lt_trichotomy i s.cursor.pos with hbefore | rfl | hbehind
    . exact hnone i hle hbefore hbyte
    . exact absurd ((h.onText.sees_iff (x := '\x7d') (by decide)).mpr hbyte) hsees
    . rw [h.onText.settled.width_eq, h.onText.decodeAt_eq] at hlt
      exact ⟨s.cursor.pos, hstart, hbehind, hlt⟩

/--
Within a line, a step leads on, and it is known why nothing visible has been seen.
-/
theorem goes_step (h : s.cursor.OnLine doc marks line) (hunseen : s.visible = false → s.Unseen doc above line) (settings : Settings)
    (hend : (s.leave settings.keywords).cursor.atLineEnd = false) : Goes doc marks line above (s.step settings false) := by
  unfold step
  simp only [hend, Bool.not_false, Bool.and_true, Bool.false_eq_true, ↓reduceIte]
  cases hbraces : s.inBraces with
  | true =>
    rw [if_pos rfl, leave_of_inBraces hbraces]
    rw [leave_of_inBraces hbraces] at hend
    have ht := onLine_leaveBraces h
    have hpos : s.leaveBraces.cursor.forward.pos = s.leaveBraces.cursor.pos + s.leaveBraces.cursor.width := Cursor.pos_forward ht.more
    have hrest := leaveBraces_rest s
    refine ⟨ht, fun _ => hend, fun hvisible => ?_⟩
    obtain ⟨hhidden, hescaped⟩ := (hunseen (by rw [← hvisible, hrest])).hidden_leaveBraces h hbraces
    have hescaped' : s.leaveBraces.escaped = false := by rw [hrest, hescaped]
    cases hhidden with
    | inside habove hopen hnone => exact .braces habove hopen hescaped' (hpos ▸ hnone)
    | closed hclosed hstate hskipped =>
      refine .blank (ht.atLineStart_forward hend) ⟨hclosed, hescaped', .inl ((Cursor.state_forward ht.more).trans hstate), ?_⟩
      exact fun i _ hlt => .inr ⟨_, hskipped, hpos ▸ hlt⟩
  | false =>
    have hleft := left_leave h hbraces settings.keywords
    have hunseen' : (s.leave settings.keywords).visible = false → (s.leave settings.keywords).Unseen doc above line := by
      intro hvisible
      rw [hleft.rest] at hvisible
      exact hleft.unseen hbraces (hunseen hvisible)
    have hbraces' : (s.leave settings.keywords).inBraces = false := by
      rw [hleft.rest]
      exact hbraces
    rw [if_neg Bool.false_ne_true]
    generalize s.leave settings.keywords = t at *
    refine .ite (fun hescaped => ⟨hleft.cursor, fun _ => hend, fun hvisible => ?_⟩) fun _ =>
      goes_stepInLine hleft.cursor hend hbraces' hunseen'
    cases hunseen' hvisible with
    | begun _ _ hblank => exact absurd (hescaped.symm.trans hblank.escaped) (by decide)
    | blank _ hblank => exact absurd (hescaped.symm.trans hblank.escaped) (by decide)
    | quote _ habove hclosed hstate =>
      exact .quote (hleft.cursor.atLineStart_forward hend) habove hclosed ((Cursor.state_forward hleft.cursor.more).trans hstate)
    | braces _ hopen _ _ => exact absurd (hbraces'.symm.trans hopen) (by decide)

/--
At the end of a line on which nothing visible has been seen, its bytes are spaces or have been overlooked.
-/
theorem Unseen.bytes (hunseen : s.Unseen doc above line) (h : s.cursor.OnLine doc marks line) (keywords : Keywords)
    (hend : (s.leave keywords).cursor.atLineEnd = true) (hle : doc.lineStart line ≤ i) (hlt : i < doc.lineStart (line + 1)) :
    Code.isSpace (doc.byteAt i 0x20).toNat = true ∨ Overlooked doc above (s.leave keywords).memory line i := by
  cases hbraces : s.inBraces with
  | true =>
    rw [leave_of_inBraces hbraces] at hend ⊢
    have ht := onLine_leaveBraces h
    have hreach := ht.lineStart_le hend
    cases (hunseen.hidden_leaveBraces h hbraces).1 with
    | inside habove hopen _ => exact .inr (.braces habove hopen)
    | closed _ _ hskipped => exact .inr (.skipped hskipped (Nat.lt_of_lt_of_le hlt hreach))
  | false =>
    have hleft := left_leave h hbraces keywords
    have hunseen' := hleft.unseen hbraces hunseen
    generalize s.leave keywords = t at *
    have hblank : t.Blank doc above line → Code.isSpace (doc.byteAt i 0x20).toNat = true ∨ Overlooked doc above t.memory line i := by
      intro hblank
      rcases Nat.lt_or_ge i t.cursor.pos with hbefore | hat
      . rcases hblank.bytes i hle hbefore with hspace | ⟨_, hskipped, hin⟩
        . exact .inl hspace
        . exact .inr (.skipped hskipped hin)
      . rcases hleft.cursor.isSpace_of_atLineEnd hend hat hlt with hspace | ⟨hbefore, hlast⟩
        . exact .inl hspace
        . exact .inr (.lead hat hbefore hlast)
    cases hunseen' with
    | begun _ _ hfirst => exact hblank hfirst
    | blank _ hfirst => exact hblank hfirst
    | quote _ habove _ hstate =>
      refine .inr (.quote habove ?_)
      show (if t.cursor.state == Style.inQuote then Opened.quote else _) = _
      rw [hstate]
      rfl
    | braces habove hopen _ _ => exact .inr (.braces habove hopen)

end Scan

end Highlight.Tcl
