import Highlight.Proofs.Cursor.Lowered
import Highlight.Proofs.Gibiane.Lowered
import Highlight.Proofs.Haskell.Resume
import Highlight.Proofs.R.Resume
import Highlight.Proofs.Rust.Resume
import Highlight.Proofs.Scss.Resume
import Highlight.Proofs.Session.Again
import Highlight.Proofs.Sql.Lowered
import Highlight.Proofs.Tcl.Walk

/-!
The first line of a text is coloured like any other line: behind an empty line, it gets the same styles. Only a number
that a text of Gibiane starts with is none without a line in front of it.
-/

namespace Highlight

open LineIndex

namespace R

variable {keywords : Keywords} {c : Cursor} {doc doc' : Document}

theorem starting?_lineFeed (hcur : c.cur = Code.lineFeed) : starting? c = none := by
  unfold starting? startsNumber Cursor.sees
  rw [hcur]
  rfl

theorem advance_lineFeed (hcur : c.cur = Code.lineFeed) (hstate : c.state = Style.default) : advance keywords c = c.forward := by
  have hleave : leave keywords c = c := by
    unfold leave
    rw [hstate]
    rfl
  unfold advance endsSpecial step enter
  rw [hleave, hstate, starting?_lineFeed hcur]
  rfl

theorem start_eq_begin (hdoc : doc.WellFormed) (hpos : 0 < doc.size) : ∃ pen : Pen, pen.Begun doc
    ∧ start (doc.spanOf 0 doc.size) doc = .begin doc pen := by
  refine ⟨_, Cursor.begun_start hdoc hpos, ?_⟩
  have hstate : (Cursor.start doc (doc.spanOf 0 doc.size)).state = Style.default :=
    Cursor.state_start hdoc startsLine_zero hpos (.inr rfl)
  rw [start_eq, hstate]
  exact congrArg (Cursor.changeState _) hstate.symm

theorem styles_lowered (h : doc.Lowered doc') (keywords : Keywords) (i : Nat) :
    ((pass False loose keywords).colour doc' 0 doc'.size).styles[i + 1]?
      = ((pass False loose keywords).colour doc 0 doc.size).styles[i]? := by
  have hlawful : (pass False loose keywords).LawfulPass := lawfulPass (fun _ => id) keywords
  obtain ⟨pen, hpen, hstart⟩ := start_eq_begin h.wellFormed h.pos
  obtain ⟨pen', hpen', hstart'⟩ := start_eq_begin h.wellFormed' h.pos'
  have hmore' : (Cursor.begin doc' pen').more = true := Cursor.more_begin h.wellFormed' h.pos'
  have hgood : (pass False loose keywords).Good ((pass False loose keywords).start doc 0 doc.size) :=
    good_pass keywords h.wellFormed startsLine_zero h.pos (.inr rfl) False.elim
  have hgood' : (pass False loose keywords).Good ((pass False loose keywords).start doc' 0 doc'.size) :=
    good_pass keywords h.wellFormed' startsLine_zero h.pos' (.inr rfl) False.elim
  have hrun : Iterates Cursor.more (advance keywords) (start (doc'.spanOf 0 doc'.size) doc') (Cursor.begin doc' pen').forward := by
    rw [hstart', ← advance_lineFeed (h.cur_begin hpen') (Cursor.state_begin h.wellFormed' h.pos')]
    exact .head hmore' (.refl _)
  have halike : Alike False (.lowered doc) (Pen.ShiftedLate (.lowered doc) loose Style.default)
      (start (doc.spanOf 0 doc.size) doc) (Cursor.begin doc' pen').forward := by
    rw [hstart]
    exact
      { cursor := h.alike hpen hpen' (h.shiftedLate hpen hpen' rfl)
        token := False.elim
        kept := ⟨False.elim, fun _ => .inl (Cursor.pos_begin h.wellFormed h.pos)⟩
        kept' := ⟨False.elim, fun _ => .inl (h.pos_forward_begin hpen')⟩ }
  exact hlawful.styles_lowered h hgood hgood' (.refl _) hrun halike i

end R

namespace Rust

variable {keywords : Keywords} {s s' : Scan} {doc doc' : Document} {pen pen' : Pen}

/--
The scan, one character further.
-/
def Scan.onward (s : Scan) : Scan :=
  s.withCursor s.cursor.forward

/--
The scan as if it had come over a line end.
-/
def Scan.behindLineEnd (s : Scan) : Scan :=
  s.withCursor s.cursor.behindLineEnd

/--
What starts at the cursor does not depend on the character in front of it, which is forgotten one character further.
-/
theorem onward_start (s : Scan) : s.behindLineEnd.start.onward = s.start.onward := by
  unfold Scan.start
  refine apply_ite_congr rfl (apply_ite_congr rfl (apply_ite_congr rfl (apply_ite_congr rfl (apply_ite_congr rfl
    (apply_ite_congr rfl (apply_ite_congr rfl (apply_ite_congr rfl (apply_ite_congr rfl (apply_ite_congr ?_ rfl)))))))))
  -- Of two dots, the first one is gone by at once, so that the second one stands in front of the next character.
  by_cases hpair : s.cursor.seesPair '.' '.' = true
  . have hpair' : s.behindLineEnd.cursor.seesPair '.' '.' = true := hpair
    dsimp only
    rw [hpair, hpair']
    rfl
  . have hpair' : s.behindLineEnd.cursor.seesPair '.' '.' = false := Bool.eq_false_iff.mpr hpair
    dsimp only
    rw [Bool.eq_false_iff.mpr hpair, hpair']
    rfl

theorem leave_default (hstate : s.cursor.state = Style.default) : s.leave keywords = s := by
  unfold Scan.leave
  dsimp only
  rw [hstate]
  rfl

theorem step_default (hstart : s.cursor.atLineStart = true) (hstate : s.cursor.state = Style.default) :
    s.step keywords = s.storeNesting.start.onward := by
  have hstate : s.storeNesting.cursor.state = Style.default := hstate
  unfold Scan.step Scan.enter
  dsimp only
  rw [hstart, if_pos rfl, leave_default hstate, hstate]
  rfl

/--
At a line start outside of a token, the character in front of the line plays no role.
-/
theorem step_behindLineEnd (hstart : s.cursor.atLineStart = true) (hstate : s.cursor.state = Style.default) :
    s.behindLineEnd.step keywords = s.step keywords := by
  have hstart' : s.behindLineEnd.cursor.atLineStart = true := hstart
  have hstate' : s.behindLineEnd.cursor.state = Style.default := hstate
  rw [step_default hstart hstate, step_default hstart' hstate']
  exact onward_start s.storeNesting

theorem start_lineFeed (hcur : s.cursor.cur = Code.lineFeed) : s.start = s := by
  unfold Scan.start Cursor.sees Cursor.seesPair
  dsimp only
  rw [hcur]
  rfl

theorem step_lineFeed (hcur : s.cursor.cur = Code.lineFeed) (hstart : s.cursor.atLineStart = true)
    (hstate : s.cursor.state = Style.default) :
    s.step keywords = s.storeNesting.onward := by
  have hcur : s.storeNesting.cursor.cur = Code.lineFeed := hcur
  rw [step_default hstart hstate, start_lineFeed hcur]

theorem alike_lowered (h : doc.Lowered doc') (hpen : pen.Begun doc) (hpen' : pen'.Begun doc') (hcursor : s.cursor = .begin doc pen)
    (hcursor' : s'.cursor = (Cursor.begin doc' pen').forward) (hnesting : s'.nesting = s.nesting) :
    Scan.Alike False (.lowered doc) (Pen.ShiftedLate (.lowered doc) loose Style.default) s.behindLineEnd s' := by
  have hline : s.cursor.line = 0 := by rw [hcursor, Cursor.line_begin h.wellFormed h.pos]
  have hstate : s.cursor.state = Style.default := by rw [hcursor, Cursor.state_begin h.wellFormed h.pos]
  have hstart : s.cursor.atLineStart = true := by rw [hcursor, Cursor.atLineStart_begin h.wellFormed h.pos]
  have hstart' : s'.cursor.atLineStart = true := by rw [hcursor', h.atLineStart_forward_begin hpen']
  refine
    { cursor := ?_
      nesting := hnesting
      prev := ?_
      known := .of_isPlain (isPlain_of_loose (congrArg loose hstate))
      single := False.elim
      lineStates := fun l _ hl => absurd (Nat.lt_of_lt_of_eq hl hline) (Nat.not_lt_zero l)
      kept := ⟨False.elim, False.elim, fun hinner => absurd (hstart.symm.trans hinner) (by decide)⟩
      kept' := ⟨False.elim, False.elim, fun hinner => absurd (hstart'.symm.trans hinner) (by decide)⟩ }
  . show s.cursor.behindLineEnd.Alike _ _ _
    rw [hcursor, hcursor']
    exact (h.alike hpen hpen' (h.shiftedLate hpen hpen' rfl)).behindLineEnd
  . rw [hcursor', h.prev_forward_begin hpen']
    rfl

theorem styles_lowered (h : doc.Lowered doc') (keywords : Keywords) (i : Nat) :
    ((pass False False loose keywords).colour doc' 0 doc'.size).styles[i + 1]?
      = ((pass False False loose keywords).colour doc 0 doc.size).styles[i]? := by
  have hlawful : (pass False False loose keywords).LawfulPass := lawfulPass (fun _ => id) keywords
  have hgood : (pass False False loose keywords).Good ((pass False False loose keywords).start doc 0 doc.size) :=
    good_pass keywords h.wellFormed startsLine_zero h.pos (.inr rfl) False.elim False.elim
  have hgood' : (pass False False loose keywords).Good ((pass False False loose keywords).start doc' 0 doc'.size) :=
    good_pass keywords h.wellFormed' startsLine_zero h.pos' (.inr rfl) False.elim False.elim
  have hpen := Cursor.begun_start h.wellFormed h.pos
  have hpen' := Cursor.begun_start h.wellFormed' h.pos'
  let s : Scan := .ofSpan (doc.spanOf 0 doc.size) doc
  let s' : Scan := .ofSpan (doc'.spanOf 0 doc'.size) doc'
  have hmore : s.cursor.more = true := Cursor.more_begin h.wellFormed h.pos
  have hmore' : s'.cursor.more = true := Cursor.more_begin h.wellFormed' h.pos'
  have hin : s.cursor.pos < (View.lowered doc).reach := Cursor.pos_lt_reach_begin h.wellFormed h.pos
  have hstep : s.behindLineEnd.step keywords = s.step keywords :=
    step_behindLineEnd (Cursor.atLineStart_begin h.wellFormed h.pos) (Cursor.state_begin h.wellFormed h.pos)
  have hstep' : s'.step keywords = s'.storeNesting.onward :=
    step_lineFeed (h.cur_begin hpen') (Cursor.atLineStart_begin h.wellFormed' h.pos') (Cursor.state_begin h.wellFormed' h.pos')
  have hnesting : (s'.step keywords).nesting = s.nesting := by
    rw [hstep']
    show Nesting.before doc' (Cursor.begin doc' s'.cursor.pen).line = Nesting.before doc (Cursor.begin doc s.cursor.pen).line
    rw [Cursor.line_begin h.wellFormed h.pos, Cursor.line_begin h.wellFormed' h.pos']
    rfl
  have halike : Scan.Alike False (.lowered doc) (Pen.ShiftedLate (.lowered doc) loose Style.default) s.behindLineEnd
      (s'.step keywords) := alike_lowered h hpen (hpen'.setLineState _ _) rfl (congrArg Scan.cursor hstep') hnesting
  have hnext := (halike.step (View.closed_shiftedLate Style.default) hin keywords).1
  rw [hstep] at hnext
  have hrun : Iterates (·.cursor.more) (Scan.step keywords) s (s.step keywords) := .head hmore (.refl _)
  have hrun' : Iterates (·.cursor.more) (Scan.step keywords) s' ((s'.step keywords).step keywords) :=
    .head hmore' (.head (halike.cursor.more' hin) (.refl _))
  exact hlawful.styles_lowered h hgood hgood' hrun hrun' hnext i

end Rust

namespace Scss

variable {keywords : Keywords} {s s' : Scan} {doc doc' : Document} {pen pen' : Pen}

theorem start_lineFeed (hcur : s.cursor.cur = Code.lineFeed) (hstate : s.cursor.state = Style.default) : s.start = s := by
  unfold Scan.start Cursor.seesPair Scan.seesOperator
  dsimp only
  rw [hcur, hstate]
  rfl

theorem leaveSelector_default (hstate : s.cursor.state = Style.default) : s.leaveSelector = s := by
  have hnone : ∀ b : Bool, (Style.default == Style.cssClass || Style.default == Style.id
      || (b && Style.pseudo.contains Style.default)) = false := Bool.and_false
  unfold Scan.leaveSelector
  dsimp only
  rw [hstate, hnone, Bool.and_false]
  rfl

theorem classify_default (hstate : s.cursor.state = Style.default) : s.classify keywords = s := by
  have hnone : dependsOnWord s.cursor.state = false := by
    rw [hstate]
    rfl
  unfold Scan.classify
  dsimp only
  rw [hnone, Bool.and_false]
  rfl

theorem stepInToken_lineFeed (hcur : s.cursor.cur = Code.lineFeed) (hstate : s.cursor.state = Style.default) :
    s.stepInToken keywords = s := by
  have hcomment : s.leaveComment = s := by
    unfold Scan.leaveComment
    dsimp only
    rw [hstate]
    rfl
  unfold Scan.stepInToken
  dsimp only
  rw [hcomment, hstate]
  show s.stepOutside keywords = s
  have hstay : (if s.cursor.state == Style.operator then s.leaveOperator else s) = s := by
    rw [hstate]
    rfl
  unfold Scan.stepOutside Cursor.sees
  dsimp only
  rw [hstay, hcur, classify_default hstate, leaveSelector_default hstate, start_lineFeed hcur hstate]
  rfl

/--
An empty line passes by the context.
-/
theorem step_lineFeed (hpos : s.cursor.pos = 0) (hcur : s.cursor.cur = Code.lineFeed) (hend : s.cursor.atLineEnd = true)
    (hstate : s.cursor.state = Style.default) :
    s.step keywords = s.withCursor (s.cursor.setLineState s.cursor.line s.context.pack).forward := by
  have hcommit : (if s.cursor.atLineStart then s.withCursor s.cursor.commit else s) = s := by
    rw [Scan.withCursor, Cursor.commit_of_zero hpos]
    exact ite_self s
  unfold Scan.step
  dsimp only
  rw [hcommit, stepInToken_lineFeed hcur hstate, hend]
  rfl

theorem alike_lowered (h : doc.Lowered doc') (hpen : pen.Begun doc) (hpen' : pen'.Begun doc') (hcursor : s.cursor = .begin doc pen)
    (hcursor' : s'.cursor = (Cursor.begin doc' pen').forward) (hcontext : s'.context = s.context) :
    Scan.Alike False (.lowered doc) (Pen.ShiftedLate (.lowered doc) (· == Style.default) Style.default) s s' := by
  have hpos : s.cursor.pos = 0 := by rw [hcursor, Cursor.pos_begin h.wellFormed h.pos]
  have hpos' : s'.cursor.pos = 1 := by rw [hcursor', h.pos_forward_begin hpen']
  have hline : s.cursor.line = 0 := by rw [hcursor, Cursor.line_begin h.wellFormed h.pos]
  have hstart : s.cursor.atLineStart = true := by rw [hcursor, Cursor.atLineStart_begin h.wellFormed h.pos]
  have hprev : s.cursor.prev = 0 := by rw [hcursor, Cursor.prev_begin h.wellFormed h.pos]
  have hprev' : s'.cursor.prev = Code.lineFeed := by rw [hcursor', h.prev_forward_begin hpen']
  exact
    { cursor := by
        rw [hcursor, hcursor']
        exact h.alike hpen hpen' (h.shiftedLate hpen hpen' rfl)
      context := hcontext
      isWord_prev := by
        rw [hprev, hprev']
        rfl
      colon_prev := by
        rw [hprev, hprev']
        rfl
      fits := False.elim
      packable := False.elim
      tight := fun hinner => absurd (hstart.symm.trans hinner) (by decide)
      single := False.elim
      lineStates := fun l _ hl => absurd (Nat.lt_of_lt_of_eq hl hline) (Nat.not_lt_zero l)
      kept := ⟨.inl hpos, False.elim⟩
      kept' := ⟨.inl hpos', False.elim⟩ }

theorem styles_lowered (h : doc.Lowered doc') (keywords : Keywords) (i : Nat) :
    ((pass False (· == Style.default) keywords).colour doc' 0 doc'.size).styles[i + 1]?
      = ((pass False (· == Style.default) keywords).colour doc 0 doc.size).styles[i]? := by
  have hlawful : (pass False (· == Style.default) keywords).LawfulPass := lawfulPass rfl keywords
  have hgood : (pass False (· == Style.default) keywords).Good ((pass False (· == Style.default) keywords).start doc 0 doc.size) :=
    good_pass keywords h.wellFormed startsLine_zero h.pos (.inr rfl) False.elim False.elim False.elim
  have hgood' : (pass False (· == Style.default) keywords).Good
      ((pass False (· == Style.default) keywords).start doc' 0 doc'.size) :=
    good_pass keywords h.wellFormed' startsLine_zero h.pos' (.inr rfl) False.elim False.elim False.elim
  have hpen := Cursor.begun_start h.wellFormed h.pos
  have hpen' := Cursor.begun_start h.wellFormed' h.pos'
  let s : Scan := .ofSpan (doc.spanOf 0 doc.size) doc
  let s' : Scan := .ofSpan (doc'.spanOf 0 doc'.size) doc'
  have hmore' : s'.cursor.more = true := Cursor.more_begin h.wellFormed' h.pos'
  have hstep' : s'.step keywords = s'.withCursor (s'.cursor.setLineState s'.cursor.line s'.context.pack).forward :=
    step_lineFeed (Cursor.pos_begin h.wellFormed' h.pos') (h.cur_begin hpen') (h.atLineEnd_begin hpen')
      (Cursor.state_begin h.wellFormed' h.pos')
  have hcontext : (s'.step keywords).context = s.context := by
    rw [hstep']
    show Context.before doc' (Cursor.begin doc' s'.cursor.pen).line = Context.before doc (Cursor.begin doc s.cursor.pen).line
    rw [Cursor.line_begin h.wellFormed h.pos, Cursor.line_begin h.wellFormed' h.pos']
    rfl
  have halike : Scan.Alike False (.lowered doc) (Pen.ShiftedLate (.lowered doc) (· == Style.default) Style.default) s
      (s'.step keywords) := alike_lowered h hpen (hpen'.setLineState _ _) rfl (congrArg Scan.cursor hstep') hcontext
  exact hlawful.styles_lowered h hgood hgood' (.refl _) (.head hmore' (.refl _)) halike i

end Scss

namespace Haskell

variable {settings : Settings} {s s' : Scan} {doc doc' : Document} {pen pen' : Pen}

theorem start_lineFeed (hcur : s.cursor.cur = Code.lineFeed) : s.start = s.withCursor s.cursor.forward := by
  have htext : s.cursor.seesText "\x7b-#" = false := by
    unfold Cursor.seesText Cursor.matchesBy
    rw [hcur]
    rfl
  have hhash : (s.cursor.atLineStart && Code.lineFeed.is '#') = false := Bool.and_false _
  unfold Scan.start Cursor.sees Cursor.seesPair
  dsimp only
  rw [htext, hcur, hhash]
  rfl

/--
The line that a line feed leaves behind gets its state.
-/
theorem advance_lineFeed (hcur : s.cursor.cur = Code.lineFeed) (hstate : s.cursor.state = Style.default) (hpending : s.pending = 0)
    (hline : s.cursor.forward.line = 1) :
    s.advance settings = { s with cursor := s.cursor.forward.setLineState 0 s.memory.pack, pending := 1 } := by
  have hleave : s.leave settings = s := by
    unfold Scan.leave
    dsimp only
    rw [hstate]
    rfl
  have henter : s.enter = s.withCursor s.cursor.forward := by
    unfold Scan.enter
    rw [hstate, start_lineFeed hcur]
    rfl
  unfold Scan.advance Scan.storeLines
  rw [hleave, henter]
  dsimp only [Scan.withCursor]
  rw [hpending, hline]
  rfl

theorem alike_lowered (h : doc.Lowered doc') (hpen : pen.Begun doc) (hpen' : pen'.Begun doc') (hcursor : s.cursor = .begin doc pen)
    (hcursor' : s'.cursor = (Cursor.begin doc' pen').forward) (hmemory : s.memory = ⟨.plain, 0⟩)
    (hmemory' : s'.memory = ⟨.plain, 0⟩) (hpending : s.pending = 0) (hpending' : s'.pending = 1) :
    Scan.Alike (.lowered doc) (Pen.ShiftedLate (.lowered doc) loose Style.default) s s' := by
  have hpos : s.cursor.pos = 0 := by rw [hcursor, Cursor.pos_begin h.wellFormed h.pos]
  have hline : s.cursor.line = 0 := by rw [hcursor, Cursor.line_begin h.wellFormed h.pos]
  have hstate : s.cursor.state = Style.default := by rw [hcursor, Cursor.state_begin h.wellFormed h.pos]
  exact
    { near :=
        { cursor := by
            rw [hcursor, hcursor']
            exact h.alike hpen hpen' (h.shiftedLate hpen hpen' rfl)
          memory := hmemory'.trans hmemory.symm
          pending := by
            rw [hpending, hpending']
            rfl
          first_le := Nat.zero_le _
          pending_le := Nat.le_of_eq (hpending.trans hline.symm)
          token := congrArg isToken hstate
          sign := fun hoperator => absurd (hstate.symm.trans hoperator) (by decide)
          small := by
            rw [hmemory]
            exact fun _ => by decide }
      pending := hpending.trans hline.symm
      stored := fun hreach => absurd (hpos.symm.trans hreach) (Nat.succ_ne_zero _).symm }

theorem styles_lowered (h : doc.Lowered doc') (keywords : Keywords) (i : Nat) :
    ((pass False keywords doc.options).colour doc' 0 doc'.size).styles[i + 1]?
      = ((pass False keywords doc.options).colour doc 0 doc.size).styles[i]? := by
  have hlawful : (pass False keywords doc.options).LawfulPass := lawfulPass keywords doc.options
  have hgood : (pass False keywords doc.options).Good ((pass False keywords doc.options).start doc 0 doc.size) :=
    good_pass keywords h.wellFormed startsLine_zero h.pos (.inr rfl) rfl
  have hgood' : (pass False keywords doc.options).Good ((pass False keywords doc.options).start doc' 0 doc'.size) := by
    rw [← h.options]
    exact good_pass keywords h.wellFormed' startsLine_zero h.pos' (.inr rfl) rfl
  have hpen := Cursor.begun_start h.wellFormed h.pos
  have hpen' := Cursor.begun_start h.wellFormed' h.pos'
  let s : Scan := .ofSpan (doc.spanOf 0 doc.size) doc
  let s' : Scan := .ofSpan (doc'.spanOf 0 doc'.size) doc'
  have hmore' : s'.cursor.more = true := Cursor.more_begin h.wellFormed' h.pos'
  have hline : s.cursor.line = 0 := Cursor.line_begin h.wellFormed h.pos
  have hline' : s'.cursor.line = 0 := Cursor.line_begin h.wellFormed' h.pos'
  have hstep' : s'.advance (.read keywords doc.options)
      = { s' with cursor := s'.cursor.forward.setLineState 0 s'.memory.pack, pending := 1 } :=
    advance_lineFeed (h.cur_begin hpen') (Cursor.state_begin h.wellFormed' h.pos') hline' (h.line_forward_begin hpen')
  have hmemory : s.memory = ⟨.plain, 0⟩ := congrArg (Memory.before doc) hline
  have hmemory' : s'.memory = ⟨.plain, 0⟩ := congrArg (Memory.before doc') hline'
  have halike : Scan.Alike (.lowered doc) (Pen.ShiftedLate (.lowered doc) loose Style.default) s
      (s'.advance (.read keywords doc.options)) := by
    rw [hstep', ← Cursor.forward_setLineState]
    exact alike_lowered h hpen (hpen'.setLineState _ _) rfl rfl hmemory hmemory' hline rfl
  exact hlawful.styles_lowered h hgood hgood' (.refl _) (.head hmore' (.refl _)) ⟨halike, rfl⟩ i

end Haskell

namespace Tcl

variable {doc doc' : Document} {pen pen' : Pen}

/--
The scan that nothing is known of yet.
-/
def Scan.blank (cursor : Cursor) : Scan :=
  { cursor
    inCommentBlock := false
    inBraces := false
    opened := .nothing
    escaped := false
    depth := 0
    lineDepth := 0
    commandExpected := false
    parens := 0
    visible := false }

/--
An empty line says nothing.
-/
theorem exists_advance_eq (h : doc.Lowered doc') (hpen' : pen'.Begun doc') (settings : Settings) : ∃ pen : Pen, pen.Begun doc'
    ∧ (Scan.blank (.begin doc' pen')).advance settings = .blank (Cursor.begin doc' pen).forward := by
  have hstate : (Scan.blank (.begin doc' pen')).cursor.state = Style.default := Cursor.state_begin h.wellFormed' h.pos'
  have hleave : (Scan.blank (.begin doc' pen')).leave settings.keywords = .blank (.begin doc' pen') := by
    unfold Scan.leave
    dsimp only
    rw [hstate]
    rfl
  have hfold : (Scan.blank (.begin doc' pen')).foldComment settings.foldComments = .blank (.begin doc' pen') := by
    have hnone : (settings.foldComments && Style.default == Style.commentLine) = false := Bool.and_false _
    unfold Scan.foldComment
    rw [hstate, hnone]
    rfl
  have hopened : (Scan.blank (.begin doc' pen')).openedBehind = .nothing := by
    unfold Scan.openedBehind
    rw [hstate]
    rfl
  let pen := (pen'.setLevel (Cursor.begin doc' pen').line (packLevel 0 0 false false)).setLineState (Cursor.begin doc' pen').line
    (Memory.pack ⟨.nothing, false, false⟩)
  have hstay : (Cursor.begin doc' pen).setState Style.default = .begin doc' pen :=
    (congrArg (Cursor.setState _) (Cursor.state_begin h.wellFormed' h.pos').symm).trans
      (Cursor.setState_of_zero (Cursor.pos_begin h.wellFormed' h.pos'))
  have hstore : (Scan.blank (.begin doc' pen')).storeLine = .begin doc' pen := by
    unfold Scan.storeLine
    rw [hopened]
    exact hstay
  refine ⟨pen, (hpen'.setLevel _ _).setLineState _ _, ?_⟩
  unfold Scan.advance
  rw [Scan.step_of_atLineEnd settings (by rw [hleave]; exact h.atLineEnd_begin hpen'), hleave, Scan.after_endLine, hfold]
  unfold Scan.closeLine
  rw [hopened, hstore]
  rfl

theorem alike_lowered (h : doc.Lowered doc') (hpen : pen.Begun doc) (hpen' : pen'.Begun doc') :
    Scan.Alike False False (.lowered doc) (Pen.ShiftedLate (.lowered doc) loose Style.default) (.blank (.begin doc pen))
      (.blank (Cursor.begin doc' pen').forward) where
  cursor := h.alike hpen hpen' (h.shiftedLate hpen hpen' rfl)
  rest := rfl
  parens := fun _ => rfl
  flat := fun _ => rfl
  block := False.elim
  kept := .of_pos_eq (Cursor.pos_begin h.wellFormed h.pos) False.elim
  kept' := .of_pos_eq (h.pos_forward_begin hpen') False.elim

theorem exists_start_eq (hdoc : doc.WellFormed) (hpos : 0 < doc.size) :
    ∃ pen : Pen, pen.Begun doc ∧ Scan.ofSpan (doc.spanOf 0 doc.size) doc = .blank (.begin doc pen) := by
  have hline : (Cursor.start doc (doc.spanOf 0 doc.size)).line = 0 :=
    (Cursor.line_start hdoc startsLine_zero hpos (.inr rfl)).trans hdoc.lineOf_zero
  exact ⟨_, (Cursor.begun_start hdoc hpos).setLevel 0 (Level.base ||| Level.headerFlag), ofSpan_of_zero hline⟩

theorem styles_lowered (h : doc.Lowered doc') (keywords : Keywords) (i : Nat) :
    ((pass False False loose keywords doc.options).colour doc' 0 doc'.size).styles[i + 1]?
      = ((pass False False loose keywords doc.options).colour doc 0 doc.size).styles[i]? := by
  have hlawful : (pass False False loose keywords doc.options).LawfulPass := lawfulPass (fun _ => id) id keywords doc.options
  have hgood : (pass False False loose keywords doc.options).Good
      ((pass False False loose keywords doc.options).start doc 0 doc.size) :=
    good_pass keywords h.wellFormed startsLine_zero h.pos (.inr rfl) False.elim False.elim
  have hgood' : (pass False False loose keywords doc.options).Good
      ((pass False False loose keywords doc.options).start doc' 0 doc'.size) := by
    rw [← h.options]
    exact good_pass keywords h.wellFormed' startsLine_zero h.pos' (.inr rfl) False.elim False.elim
  obtain ⟨pen, hpen, hstart⟩ := exists_start_eq h.wellFormed h.pos
  obtain ⟨pen', hpen', hstart'⟩ := exists_start_eq h.wellFormed' h.pos'
  obtain ⟨pen₁, hpen₁, hstep⟩ := exists_advance_eq h hpen' (.read keywords doc.options)
  have hrun : Iterates (·.cursor.more) (Scan.advance (.read keywords doc.options)) (.ofSpan (doc'.spanOf 0 doc'.size) doc')
      (.blank (Cursor.begin doc' pen₁).forward) := by
    rw [hstart', ← hstep]
    exact .head (Cursor.more_begin h.wellFormed' h.pos') (.refl _)
  have halike : Scan.Alike False False (.lowered doc) (Pen.ShiftedLate (.lowered doc) loose Style.default)
      (.ofSpan (doc.spanOf 0 doc.size) doc) (.blank (Cursor.begin doc' pen₁).forward) := by
    rw [hstart]
    exact alike_lowered h hpen hpen₁
  exact hlawful.styles_lowered h hgood hgood' (.refl _) hrun ⟨halike, rfl⟩ i

end Tcl

namespace Session

section Lowered

variable {session : Session} {doc doc' : Document} (h : doc.Lowered doc')
include h

theorem Colours.styles_lowered_iff {colour : Document → Nat → Nat → Document} (hcolours : session.Colours colour) :
    (∀ i : Nat, (session.colour doc' 0 doc'.size).styles[i + 1]? = (session.colour doc 0 doc.size).styles[i]?)
      ↔ ∀ i : Nat, (colour doc' 0 doc'.size).styles[i + 1]? = (colour doc 0 doc.size).styles[i]? := by
  rw [hcolours.colour_eq h.wellFormed h.pos (.inr rfl), hcolours.colour_eq h.wellFormed' h.pos' (.inr rfl)]

/--
A text of at least one byte gets the same styles behind an empty line, but for a number at the start of a text in Gibiane.
-/
theorem styles_lowered_iff {language : Language} (hsession : session.lexer = language.lexer) :
    (∀ i : Nat, (session.colour doc' 0 doc'.size).styles[i + 1]? = (session.colour doc 0 doc.size).styles[i]?)
      ↔ ¬ (language = .gibiane ∧ Gibiane.startsWithNumber doc = true) := by
  cases language with
  | rust =>
    have hcolours : session.Colours (Rust.pass False False Rust.loose session.keywords).colour := Rust.drives_pass hsession
    exact (hcolours.styles_lowered_iff h).trans (iff_of_true (Rust.styles_lowered h _) nofun)
  | haskell =>
    have hcolours : session.Colours (Haskell.pass False session.keywords doc.options).colour := Haskell.drives_pass hsession _
    exact (hcolours.styles_lowered_iff h).trans (iff_of_true (Haskell.styles_lowered h _) nofun)
  | tcl =>
    have hcolours : session.Colours (Tcl.pass False False Tcl.loose session.keywords doc.options).colour := Tcl.drives_pass hsession _
    exact (hcolours.styles_lowered_iff h).trans (iff_of_true (Tcl.styles_lowered h _) nofun)
  | scss =>
    have hcolours : session.Colours (Scss.pass False (· == Scss.Style.default) session.keywords).colour := Scss.drives_pass hsession
    exact (hcolours.styles_lowered_iff h).trans (iff_of_true (Scss.styles_lowered h _) nofun)
  | gibiane =>
    have hcolours : session.Colours (Gibiane.pass session.keywords).colour := Gibiane.drives_pass hsession
    rw [hcolours.styles_lowered_iff h, Gibiane.styles_lowered_iff h, ← Bool.not_eq_true]
    exact not_congr (and_iff_right rfl).symm
  | r =>
    have hcolours : session.Colours (R.pass False R.loose session.keywords).colour := R.drives_pass hsession
    exact (hcolours.styles_lowered_iff h).trans (iff_of_true (R.styles_lowered h _) nofun)
  | sql =>
    have hcolours : session.Colours (Sql.pass session.keywords) := Sql.colours_pass hsession
    exact (hcolours.styles_lowered_iff h).trans (iff_of_true (Sql.styles_lowered h _) nofun)

end Lowered

variable {session : Session}

/--
Behind the empty line, there is nothing to colour.
-/
theorem getElem?_colour_lineFeed {language : Language} (hsession : session.lexer = language.lexer) (encoding : Encoding)
    (options : Options) (i : Nat) : (session.colour (.fresh #[0x0A] encoding options) 0 1).styles[i + 1]? = none := by
  have hdoc := Document.wellFormed_fresh #[0x0A] encoding options
  have hsame := sameSource_colour hdoc Nat.zero_lt_one (.inr rfl) hsession
  apply Array.getElem?_eq_none
  rw [(hsame.wellFormed hdoc).styles, hsame.size]
  exact Nat.le_add_left 1 i

/--
Behind an empty line, a text gets the same styles, in every language, but for one thing: at the start of a text, Gibiane takes
no character for a part of a number.
-/
theorem colour_behind_lineFeed_iff (language : Language) (session : Session) (hsession : session.lexer = language.lexer)
    (encoding : Encoding) (options : Options) (text : Array UInt8) :
    (∀ i : Nat, (session.colour (.fresh (#[0x0A] ++ text) encoding options) 0 (text.size + 1)).styles[i + 1]?
        = (session.colour (.fresh text encoding options) 0 text.size).styles[i]?)
      ↔ ¬ (language = .gibiane ∧ Gibiane.startsWithNumber (.fresh text encoding options) = true) := by
  rcases Nat.eq_zero_or_pos text.size with hzero | hpos
  . obtain rfl : text = #[] := Array.eq_empty_of_size_eq_zero hzero
    have hempty : session.colour (.fresh #[] encoding options) 0 0 = .fresh #[] encoding options := colour_of_le (Nat.le_refl 0)
    have hnumber : Gibiane.startsWithNumber (.fresh #[] encoding options) = false := by
      unfold Gibiane.startsWithNumber Document.decodeAt
      rw [Encoding.decodeAt_of_size_le _ (Nat.zero_le _)]
      rfl
    refine iff_of_true (fun i => ?_) (fun h => Bool.noConfusion (h.2.symm.trans hnumber))
    show _ = (session.colour (.fresh #[] encoding options) 0 0).styles[i]?
    rw [hempty]
    exact getElem?_colour_lineFeed hsession encoding options i
  . have hsize : text.size + 1 = (#[0x0A] ++ text).size := by
      rw [Array.size_append]
      exact Nat.add_comm _ _
    rw [hsize]
    exact styles_lowered_iff (Document.lowered_fresh hpos encoding options) hsession

/--
A line that a hash starts, which is one of the preprocessor.
-/
theorem colour_behind_lineFeed_iff_hash :
    let session := Session.ofLexer Language.haskell.lexer
    let text := "#a\n1".toUTF8.data
    ∀ i : Nat, (session.colour (.fresh (#[0x0A] ++ text) .utf8 .empty) 0 (text.size + 1)).styles[i + 1]?
      = (session.colour (.fresh text .utf8 .empty) 0 text.size).styles[i]? := by
  intro session text
  exact (colour_behind_lineFeed_iff .haskell session rfl .utf8 .empty text).mpr nofun

/--
A number, which is none at the start of the text.
-/
theorem colour_behind_lineFeed_ne :
    let session := Session.ofLexer Language.gibiane.lexer
    let text := "1;".toUTF8.data
    (session.colour (.fresh text .utf8 .empty) 0 2).styles[0]? = some Gibiane.Style.default
      ∧ (session.colour (.fresh (#[0x0A] ++ text) .utf8 .empty) 0 3).styles[1]? = some Gibiane.Style.number := by
  decide +kernel

end Session

end Highlight
