import Highlight.Proofs.Cursor.Resume
import Highlight.Proofs.Session.Parts
import Highlight.Proofs.Tcl.Alike
import Highlight.Tcl

/-!
Tcl can be interrupted at every line start. The line state and the level of the line above keep what is
open, the two flags, the number of open braces and whether one of them is a block of comment lines; all
else starts anew with each line.
-/

namespace Highlight.Tcl

open LineIndex

variable {strict bounded : Prop} {v : View} {rel : Style → Pen → Pen → Prop} {s s' : Scan} {r r' : Scan × Flow} {doc doc' : Document}

/--
What a line end leaves behind for a pass that begins at the next line.
-/
structure Scan.Stored (s : Scan) : Prop where
  line_pos : 0 < s.cursor.line
  segment_lt : s.cursor.pen.segment < s.cursor.pos
  lineState : s.cursor.doc.lineState (s.cursor.line - 1) = Memory.pack ⟨s.opened, s.commandExpected, s.inBraces⟩
  level : ∃ own visible, DepthFits own ∧ s.cursor.doc.level (s.cursor.line - 1)
    = packLevel (Int32.ofInt own) (Int32.ofInt s.lineDepth) s.inCommentBlock visible

/--
What starts anew with each line.
-/
structure Scan.Anew (s : Scan) : Prop where
  state : s.cursor.state = Style.default
  escaped : s.escaped = false
  visible : s.visible = false
  depth : s.depth = s.lineDepth

/--
What is so with a scan between two steps of a pass from `start` on. A pass that is not `strict` can begin in any token,
and one that is not `bounded` can come to more open braces than a level word holds.
-/
structure Scan.Kept (strict bounded : Prop) (start : Nat) (s : Scan) : Prop where
  anew : s.cursor.atLineStart = true → strict ∨ start < s.cursor.pos → s.Anew
  stored : bounded → s.cursor.atLineStart = true → s.cursor.pos = start ∨ s.Stored

/--
Two scans between two steps, at the same place of the part that a view shows.
-/
structure Scan.Alike (strict bounded : Prop) (v : View) (rel : Style → Pen → Pen → Prop) (s s' : Scan) : Prop where
  cursor : s.cursor.Alike v rel s'.cursor
  rest : s' = { s with cursor := s'.cursor, parens := s'.parens }
  parens : s.cursor.state = Style.substitution → s'.parens = s.parens
  flat : s.visible = false ∨ s.cursor.state = Style.commentLine → s.depth = s.lineDepth
  block : strict → s.inCommentBlock = true → s.lineDepth = 1
  kept : s.Kept strict bounded v.start
  kept' : s'.Kept strict bounded (v.start + v.shift)

/--
The scan after a step has come to `r`.
-/
def Scan.after (r : Scan × Flow) : Scan :=
  match r with
  | (s, .forward) => s.withCursor s.cursor.forward
  | (s, _) => s

/--
The scan after a step that does not only end the last word.
-/
def Scan.advance (settings : Settings) (s : Scan) : Scan :=
  .after (s.step settings false)

theorem Scan.kept_of_inner (h : s.cursor.atLineStart = false) (start : Nat) : s.Kept strict bounded start where
  anew := by
    rw [h]
    exact nofun
  stored := by
    rw [h]
    exact fun _ => nofun

/--
A scan that has not moved on yet.
-/
theorem Scan.Kept.of_pos_eq {start : Nat} (hpos : s.cursor.pos = start) (hanew : strict → s.Anew) :
    s.Kept strict bounded start where
  anew := fun _ hor => hor.elim hanew fun hlt => absurd (hpos ▸ hlt) (Nat.lt_irrefl _)
  stored := fun _ _ => .inl hpos

/--
Folding comments changes what is counted.
-/
theorem Scan.foldComment_eq (foldComments : Bool) (s : Scan) :
    ∃ inCommentBlock depth lineDepth, s.foldComment foldComments = { s with inCommentBlock, depth, lineDepth } := by
  unfold foldComment
  split
  . split
    . exact ⟨true, 1, s.lineDepth, rfl⟩
    . exact ⟨s.inCommentBlock, s.depth, s.lineDepth, rfl⟩
  . split
    . exact ⟨false, _, _, rfl⟩
    . exact ⟨s.inCommentBlock, s.depth, s.lineDepth, rfl⟩

theorem Scan.cursor_foldComment (foldComments : Bool) (s : Scan) : (s.foldComment foldComments).cursor = s.cursor := by
  obtain ⟨_, _, _, heq⟩ := s.foldComment_eq foldComments
  rw [heq]

/--
What a line end leaves open.
-/
def Scan.openedBehind (s : Scan) : Opened :=
  if s.cursor.state == Style.inQuote then
    .quote
  else if s.escaped && isComment s.cursor.state then
    .comment
  else
    s.opened

/--
The cursor that has stored the level and the state of its line.
-/
def Scan.storeLine (s : Scan) : Cursor :=
  let level := packLevel (Int32.ofInt s.lineDepth) (Int32.ofInt s.depth) s.inCommentBlock s.visible
  let memory : Memory := { opened := s.openedBehind, commandExpected := s.commandExpected, inBraces := s.inBraces }
  ((s.cursor.setLevel s.cursor.line level).setLineState s.cursor.line memory.pack).setState Style.default

/--
The scan that starts anew behind a line end.
-/
def Scan.closeLine (s : Scan) : Scan :=
  { s with cursor := s.storeLine.forward, opened := s.openedBehind, escaped := false, lineDepth := s.depth, visible := false }

theorem Scan.after_endLine (foldComments : Bool) (s : Scan) :
    after (s.endLine foldComments, .forward) = (s.foldComment foldComments).closeLine := rfl

theorem Scan.leaveBraces_rest (s : Scan) :
    s.leaveBraces = { s with cursor := s.leaveBraces.cursor, inBraces := s.leaveBraces.inBraces } := by
  unfold leaveBraces
  dsimp only
  split
  . rfl
  . rfl

theorem Scan.leaveSubstitution_rest (s : Scan) :
    s.leaveSubstitution = { s with cursor := s.leaveSubstitution.cursor, parens := s.leaveSubstitution.parens } := by
  unfold leaveSubstitution
  dsimp only
  split
  . rfl
  . split
    . split
      . rfl
      . rfl
    . split
      . rfl
      . rfl

/--
Ending a word leaves alone what is counted and what has been seen.
-/
theorem Scan.leave_rest (keywords : Keywords) (s : Scan) :
    ∃ cursor inBraces commandExpected parens, s.leave keywords = { s with cursor, inBraces, commandExpected, parens } := by
  unfold leave
  dsimp only
  split
  . exact ⟨_, _, s.commandExpected, s.parens, leaveBraces_rest s⟩
  . split
    . exact ⟨s.cursor, s.inBraces, _, s.parens, rfl⟩
    . split
      . exact ⟨_, s.inBraces, s.commandExpected, _, leaveSubstitution_rest s⟩
      . split
        . exact ⟨_, s.inBraces, false, s.parens, rfl⟩
        . exact ⟨s.cursor, s.inBraces, s.commandExpected, s.parens, rfl⟩

theorem Scan.lineDepth_leave (keywords : Keywords) (s : Scan) : (s.leave keywords).lineDepth = s.lineDepth := by
  obtain ⟨_, _, _, _, heq⟩ := s.leave_rest keywords
  rw [heq]

theorem Scan.visible_leave (keywords : Keywords) (s : Scan) : (s.leave keywords).visible = s.visible := by
  obtain ⟨_, _, _, _, heq⟩ := s.leave_rest keywords
  rw [heq]

/--
What a line end keeps for the next line.
-/
def Scan.memory (s : Scan) : Memory :=
  { opened := s.openedBehind, commandExpected := s.commandExpected, inBraces := s.inBraces }

section StoreLine

variable (h : s.cursor.Settled) (hlt : s.cursor.line < s.cursor.doc.lineCount)
include h hlt

theorem Scan.lineState_storeLine (line : Nat) :
    s.storeLine.doc.lineState line = if line = s.cursor.line then s.memory.pack else s.cursor.doc.lineState line := by
  show (Pen.colourTo _ _ _).doc.lineState _ = _
  rw [Document.lineState, Pen.lineStates_colourTo, ← Document.lineState]
  split
  . next heq =>
    subst heq
    exact Document.lineState_setLineState ((Document.sameSource_setLevel _ _ _).wellFormed h.wellFormed) hlt _
  . next hne =>
    rw [Document.lineState]
    show (((s.cursor.doc.setLevel s.cursor.line _).setLineState s.cursor.line s.memory.pack).lineStates[line]?).getD 0 = _
    rw [Document.getElem?_setLineState, if_neg (Ne.symm hne)]
    rfl

theorem Scan.level_storeLine (line : Nat) :
    s.storeLine.doc.level line = if line = s.cursor.line then
        packLevel (Int32.ofInt s.lineDepth) (Int32.ofInt s.depth) s.inCommentBlock s.visible
      else s.cursor.doc.level line := by
  show (Pen.colourTo _ _ _).doc.level _ = _
  rw [Document.level, Pen.levels_colourTo, ← Document.level]
  split
  . next heq =>
    subst heq
    exact Document.level_setLevel h.wellFormed hlt _
  . next hne =>
    rw [Document.level]
    show (((s.cursor.doc.setLevel s.cursor.line _).levels[line]?).getD Level.base) = _
    rw [Document.getElem?_setLevel, if_neg (Ne.symm hne)]
    rfl

end StoreLine

/--
A line end keeps for the next line what there is to keep.
-/
theorem Scan.kept_closeLine (h : s.cursor.Settled) (hmore : s.cursor.more = true) (hend : s.cursor.atLineEnd = true)
    (hfits : bounded → DepthFits s.lineDepth) (start : Nat) : s.closeLine.Kept strict bounded start := by
  have hmore' : s.storeLine.more = true := hmore
  have hlt : s.cursor.line < s.cursor.doc.lineCount := by
    have := h.pos_le hmore
    rw [h.line, if_neg (by omega)]
    exact h.wellFormed.lineOf_lt _
  have hline : s.storeLine.forward.line = s.cursor.line + 1 := by
    rw [Cursor.line_forward hmore']
    exact if_pos hend
  have hdoc : s.storeLine.forward.doc = s.storeLine.doc := by
    rw [Cursor.doc, Cursor.pen_forward hmore']
    rfl
  have hsegment := h.segment_colourTo_le
  have hwidth := h.width_pos
  refine ⟨fun _ _ => ⟨?_, rfl, rfl, rfl⟩, fun hbounded _ => .inr ⟨?_, ?_, ?_, s.lineDepth, s.visible, hfits hbounded, ?_⟩⟩
  . exact Cursor.state_forward hmore'
  . show 0 < s.storeLine.forward.line
    omega
  . show s.storeLine.forward.pen.segment < s.storeLine.forward.pos
    rw [Cursor.pen_forward hmore', Cursor.pos_forward hmore']
    show s.storeLine.pen.segment < s.cursor.pos + s.cursor.width
    have : s.storeLine.pen.segment = (s.cursor.pen.colourTo s.cursor.pos s.cursor.state).segment := by
      show ((s.cursor.setLevel _ _).setLineState _ _ |>.pen.colourTo s.cursor.pos s.cursor.state).segment = _
      rw [Pen.segment_colourTo, Pen.segment_colourTo]
      rfl
    omega
  . show s.storeLine.forward.doc.lineState (s.storeLine.forward.line - 1) = _
    rw [hline, hdoc, Nat.add_sub_cancel, lineState_storeLine h hlt, if_pos rfl]
    rfl
  . show s.storeLine.forward.doc.level (s.storeLine.forward.line - 1) = _
    rw [hline, hdoc, Nat.add_sub_cancel, level_storeLine h hlt, if_pos rfl]
    rfl

namespace Scan

/--
Behind a line end two alike scans are alike again.
-/
theorem Inside.closeLine (hrel : v.Closed Tcl.loose rel) (h : Inside strict v rel s s') (hend : s.cursor.atLineEnd = true)
    (himp : bounded → strict) (hfits : bounded → DepthFits s.lineDepth) (foldComments : Bool) :
    Scan.Alike strict bounded v rel (s.foldComment foldComments).closeLine (s'.foldComment foldComments).closeLine
      ∧ v.start < (s.foldComment foldComments).closeLine.cursor.pos := by
  have hrest := h.foldComment_rest foldComments
  have hspec := fun hstrict => h.foldComment_spec hstrict foldComments
  have hcursor := cursor_foldComment foldComments s
  generalize s'.foldComment foldComments = t' at *
  generalize s.foldComment foldComments = t at *
  subst hrest
  have hc : t.cursor.Alike v rel s'.cursor := by
    rw [hcursor]
    exact h.cursor
  have hlt : t.cursor.pos < v.reach := by
    rw [hcursor]
    exact h.lt_reach
  have hend : t.cursor.atLineEnd = true := by rw [hcursor, hend]
  have hend' : s'.cursor.atLineEnd = true := (hc.atLineEnd hlt).trans hend
  have hown : bounded → DepthFits t.lineDepth := by
    intro hbounded
    rcases (hspec (himp hbounded)).2 with hown | hown
    . rw [hown]
      exact hfits hbounded
    . rw [hown]
      decide
  have hopened : Scan.openedBehind { t with cursor := s'.cursor, parens := s'.parens } = t.openedBehind := by
    unfold openedBehind
    simp only [hc.state]
  have hstore : t.storeLine.Alike v rel (Scan.storeLine { t with cursor := s'.cursor, parens := s'.parens }) := by
    unfold storeLine
    rw [hopened]
    simp only [hc.line]
    have hfirst := hc.first_le
    have hlast := hc.line_lt_last hlt
    exact ((hc.setLevel hrel hfirst hlast _).setLineState hrel hfirst hlast _).setState hrel _
  have hstart := hc.start_le
  have hwidth := hc.settled.width_pos
  refine
    ⟨{ cursor := hstore.forward hlt
       rest := ?_
       parens := ?_
       flat := fun _ => rfl
       block := fun hstrict => (hspec hstrict).1
       kept := kept_closeLine hc.settled (hc.more hlt) hend hown _
       kept' := kept_closeLine (s := { t with cursor := s'.cursor, parens := s'.parens }) hc.settled' (hc.more' hlt) hend' hown _ },
      ?_⟩
  . unfold Scan.closeLine
    rw [hopened]
  . intro hstate
    have hstate : t.storeLine.forward.state = Style.substitution := hstate
    rw [Cursor.state_forward (hstore.more hlt)] at hstate
    exact absurd hstate (show Style.default ≠ Style.substitution by decide)
  . show v.start < t.storeLine.forward.pos
    rw [Cursor.pos_forward (hstore.more hlt)]
    show v.start < t.cursor.pos + t.cursor.width
    omega

theorem Next.alike (h : Next strict v rel r r') : Scan.Alike strict bounded v rel (after r) (after r') ∧ v.start < (after r).cursor.pos := by
  obtain ⟨s, flow⟩ := r
  obtain ⟨s', flow'⟩ := r'
  obtain rfl : flow' = flow := h.flow
  have hin : Inside strict v rel s s' := h.inside
  have hlt := hin.lt_reach
  have hmore := hin.cursor.more hlt
  have hmore' := hin.cursor.more' hlt
  cases flow' with
  | forward =>
    have hend : s.cursor.atLineEnd = false := h.forward rfl
    have hend' : s'.cursor.atLineEnd = false := (hin.cursor.atLineEnd hlt).trans hend
    have hstart := hin.cursor.start_le
    have hwidth := hin.cursor.settled.width_pos
    refine
      ⟨{ cursor := hin.cursor.forward hlt
         rest := congrArg (·.withCursor s'.cursor.forward) hin.rest
         parens := ?_
         flat := ?_
         block := hin.block
         kept := kept_of_inner ?_ _
         kept' := kept_of_inner ?_ _ }, ?_⟩
    . intro hstate
      exact hin.parens ((Cursor.state_forward hmore).symm.trans hstate)
    . intro hflat
      exact hin.flat (hflat.imp_right fun hstate => (Cursor.state_forward hmore).symm.trans hstate)
    . exact (Cursor.atLineStart_forward hmore).trans hend
    . exact (Cursor.atLineStart_forward hmore').trans hend'
    . show v.start < s.cursor.forward.pos
      rw [Cursor.pos_forward hmore]
      omega
  | again =>
    obtain ⟨hpos, hstart⟩ := h.again rfl
    exact
      ⟨{ cursor := hin.cursor
         rest := hin.rest
         parens := hin.parens
         flat := hin.flat
         block := hin.block
         kept := kept_of_inner hstart _
         kept' := kept_of_inner ((hin.cursor.atLineStart hlt).trans hstart) _ }, hpos⟩
  | stop => exact absurd rfl h.goesOn

theorem step_of_atLineEnd (settings : Settings) (h : (s.leave settings.keywords).cursor.atLineEnd = true) :
    s.step settings false = ((s.leave settings.keywords).endLine settings.foldComments, .forward) := by
  unfold Scan.step
  simp only [h, Bool.not_true, Bool.and_false, Bool.false_eq_true, ↓reduceIte]

theorem Inside.step_of_inner (hrel : v.Closed Tcl.loose rel) (h : Inside strict v rel s s') (settings : Settings)
    (hend : (s.leave settings.keywords).cursor.atLineEnd = false) :
    Next strict v rel (s.step settings false) (s'.step settings false) := by
  have hleave := h.leave hrel settings.keywords
  have hend' := (hleave.cursor.atLineEnd hleave.lt_reach).trans hend
  have hbraces : s'.inBraces = s.inBraces := by rw [h.rest]
  have hescaped : (s'.leave settings.keywords).escaped = (s.leave settings.keywords).escaped := by rw [hleave.rest]
  unfold Scan.step
  simp only [hend, hend', hbraces, hescaped, Bool.not_false, Bool.and_true, Bool.false_eq_true, ↓reduceIte]
  refine .ite (fun _ => .of_forward hleave hend) fun _ => .ite (fun _ => ?_) fun _ => hleave.stepInLine hrel hend
  rw [hleave.cursor.state, hleave.cursor.cur hleave.lt_reach]
  exact .of_forward (hleave.withEscaped _) hend

end Scan

namespace Scan.Alike

/--
One step. Whether it comes to another character at once or to the next line, it has moved on.
-/
theorem advance (hrel : v.Closed Tcl.loose rel) (h : Scan.Alike strict bounded v rel s s') (himp : bounded → strict)
    (hfits : bounded → DepthFits s.lineDepth) (hin : s.cursor.pos < v.reach) (settings : Settings) :
    Scan.Alike strict bounded v rel (s.advance settings) (s'.advance settings) ∧ v.start < (s.advance settings).cursor.pos := by
  have hinside : Inside strict v rel s s' := ⟨h.cursor, hin, h.rest, h.parens, h.flat, h.block⟩
  unfold Scan.advance
  have hleave := hinside.leave hrel settings.keywords
  cases hend : (s.leave settings.keywords).cursor.atLineEnd with
  | false => exact (hinside.step_of_inner hrel settings hend).alike
  | true =>
    have hend' := (hleave.cursor.atLineEnd hleave.lt_reach).trans hend
    rw [step_of_atLineEnd settings hend, step_of_atLineEnd settings hend', after_endLine, after_endLine]
    exact hleave.closeLine hrel hend himp (by rw [lineDepth_leave]; exact hfits) settings.foldComments

theorem second (h : Scan.Alike strict bounded v rel s s') : Scan.Alike strict bounded v.second Pen.Equal s' s' where
  cursor := h.cursor.second
  rest := rfl
  parens := fun _ => rfl
  flat := by
    rw [h.cursor.state, h.rest]
    exact h.flat
  block := by
    rw [h.rest]
    exact h.block
  kept := h.kept'
  kept' := h.kept'

theorem behind {rel' : Style → Pen → Pen → Prop} (h : Scan.Alike strict bounded v rel s s') (hin : s.cursor.pos < v.reach)
    (hrel : rel' s.cursor.state s.cursor.pen s'.cursor.pen) :
    Scan.Alike strict bounded (v.behind s.cursor.doc s.cursor.pos) rel' s s' where
  cursor := (h.cursor.fromPos hin).of_rel hrel
  rest := h.rest
  parens := h.parens
  flat := h.flat
  block := h.block
  kept := ⟨fun hstart hor => h.kept.anew hstart (hor.imp_right fun hlt => absurd hlt (Nat.lt_irrefl _)), fun _ _ => .inl rfl⟩
  kept' := ⟨fun hstart hor => h.kept'.anew hstart (hor.imp_right fun hlt => absurd (h.cursor.pos ▸ hlt) (Nat.lt_irrefl _)),
    fun _ _ => .inl h.cursor.pos⟩

end Scan.Alike

/--
What a pass looks up in the line above the one it begins at.
-/
def Above (doc : Document) (line : Nat) (doc' : Document) (line' : Nat) : Prop :=
  doc'.lineStateAbove? line' = doc.lineStateAbove? line ∧ (0 < line → doc'.level (line' - 1) = doc.level (line - 1))

theorem Above.iff {line line' : Nat} (h : Above doc line doc' line') : 0 < line' ↔ 0 < line := by
  have := h.1
  unfold Document.lineStateAbove? at this
  split at this <;> split at this <;> simp_all

theorem Above.lineState {line line' : Nat} (h : Above doc line doc' line') (hline : 0 < line) :
    doc'.lineState (line' - 1) = doc.lineState (line - 1) := by
  have := h.1
  unfold Document.lineStateAbove? at this
  rw [if_pos hline, if_pos (h.iff.mpr hline)] at this
  exact Option.some.inj this

theorem ofSpan_of_pos {span : Span} (h : 0 < (Cursor.start doc span).line) :
    Scan.ofSpan span doc
      = { cursor := Cursor.start doc span
          inCommentBlock := inCommentBlock (doc.level ((Cursor.start doc span).line - 1))
          inBraces := (Memory.unpack (doc.lineState ((Cursor.start doc span).line - 1))).inBraces
          opened := (Memory.unpack (doc.lineState ((Cursor.start doc span).line - 1))).opened
          escaped := false
          depth := (depthAfter (doc.level ((Cursor.start doc span).line - 1))).toInt
          lineDepth := (depthAfter (doc.level ((Cursor.start doc span).line - 1))).toInt
          commandExpected := (Memory.unpack (doc.lineState ((Cursor.start doc span).line - 1))).commandExpected
          parens := 0
          visible := false } := by
  unfold Scan.ofSpan
  dsimp only
  rw [if_pos h]

theorem ofSpan_of_zero {span : Span} (h : (Cursor.start doc span).line = 0) :
    Scan.ofSpan span doc
      = { cursor := (Cursor.start doc span).setLevel 0 (Level.base ||| Level.headerFlag)
          inCommentBlock := false
          inBraces := false
          opened := .nothing
          escaped := false
          depth := 0
          lineDepth := 0
          commandExpected := false
          parens := 0
          visible := false } := by
  unfold Scan.ofSpan
  dsimp only
  rw [h, if_neg (by decide)]
  rfl

/--
A pass sets the level of the first line of a text before it begins.
-/
theorem exists_cursor_ofSpan (span : Span) (doc : Document) : ∃ pen : Pen, pen.doc.options = doc.options
    ∧ (Scan.ofSpan span doc).cursor = { Cursor.start doc span with pen } := by
  by_cases h : 0 < (Cursor.start doc span).line
  . rw [ofSpan_of_pos h]
    exact ⟨(Cursor.start doc span).pen, rfl, rfl⟩
  . rw [ofSpan_of_zero (by omega)]
    exact ⟨(Cursor.start doc span).pen.setLevel 0 _, rfl, rfl⟩

theorem pos_ofSpan (span : Span) (doc : Document) : (Scan.ofSpan span doc).cursor.pos = (Cursor.start doc span).pos := by
  obtain ⟨pen, _, hcursor⟩ := exists_cursor_ofSpan span doc
  rw [hcursor]

theorem atLineStart_ofSpan (span : Span) (doc : Document) :
    (Scan.ofSpan span doc).cursor.atLineStart = (Cursor.start doc span).atLineStart := by
  obtain ⟨pen, _, hcursor⟩ := exists_cursor_ofSpan span doc
  rw [hcursor]

theorem state_ofSpan (span : Span) (doc : Document) :
    (Scan.ofSpan span doc).cursor.state = (Cursor.start doc span).state := by
  obtain ⟨pen, _, hcursor⟩ := exists_cursor_ofSpan span doc
  rw [hcursor]

/--
All that a pass begins with but the cursor is looked up in the line above.
-/
theorem rest_ofSpan {span span' : Span} (habove : Above doc (Cursor.start doc span).line doc' (Cursor.start doc' span').line) :
    Scan.ofSpan span' doc' = { Scan.ofSpan span doc with cursor := (Scan.ofSpan span' doc').cursor } := by
  have hiff := habove.iff
  by_cases h : 0 < (Cursor.start doc span).line
  . rw [ofSpan_of_pos h, ofSpan_of_pos (hiff.mpr h), habove.lineState h, habove.2 h]
  . rw [ofSpan_of_zero (show (Cursor.start doc span).line = 0 by omega),
      ofSpan_of_zero (show (Cursor.start doc' span').line = 0 by omega)]

/--
All of a scan that a pass begins with but the style and the level starts anew.
-/
theorem anew_ofSpan {span : Span} (hstate : (Cursor.start doc span).state = Style.default) : (Scan.ofSpan span doc).Anew := by
  by_cases h : 0 < (Cursor.start doc span).line
  . rw [ofSpan_of_pos h]
    exact ⟨hstate, rfl, rfl, rfl⟩
  . rw [ofSpan_of_zero (by omega)]
    exact ⟨hstate, rfl, rfl, rfl⟩

theorem depth_ofSpan (span : Span) (doc : Document) : (Scan.ofSpan span doc).depth = (Scan.ofSpan span doc).lineDepth := by
  by_cases h : 0 < (Cursor.start doc span).line
  . rw [ofSpan_of_pos h]
  . rw [ofSpan_of_zero (by omega)]

theorem cursor_ofSpan {span span' : Span} (hrel : v.Closed loose rel)
    (h : (Cursor.start doc span).Alike v rel (Cursor.start doc' span')) (hlt : (Cursor.start doc span).pos < v.reach)
    (hiff : 0 < (Cursor.start doc' span').line ↔ 0 < (Cursor.start doc span).line) :
    (Scan.ofSpan span doc).cursor.Alike v rel (Scan.ofSpan span' doc').cursor := by
  by_cases hline : 0 < (Cursor.start doc span).line
  . rw [ofSpan_of_pos hline, ofSpan_of_pos (hiff.mpr hline)]
    exact h
  . have hzero : (Cursor.start doc span).line = 0 := by omega
    have hfirst := h.first_le
    have hlast := h.line_lt_last hlt
    have hset := h.setLevel hrel hfirst hlast (Level.base ||| Level.headerFlag)
    have hshift := h.line
    rw [hzero, show 0 + v.shift = 0 by omega] at hset
    rw [ofSpan_of_zero hzero, ofSpan_of_zero (show (Cursor.start doc' span').line = 0 by omega)]
    exact hset

/--
Passes over the same lines start alike if the line above and the style in front say the same.
-/
theorem alike_ofSpan {stop stop' : Nat} (hrel : v.Closed loose rel) (h : v.Begins doc doc' stop stop')
    (hpens : ∀ style, rel style ⟨doc, v.start⟩ ⟨doc', v.start + v.shift⟩)
    (hstyle : doc'.styleBefore (v.start + v.shift) = doc.styleBefore v.start)
    (hdefault : strict → doc.styleBefore v.start = Style.default)
    (habove : Above doc (doc.lineOf v.start) doc' (doc'.lineOf (v.start + v.shift)))
    (hblock : strict → (Scan.ofSpan (doc.spanOf v.start stop) doc).inCommentBlock = true →
      (Scan.ofSpan (doc.spanOf v.start stop) doc).lineDepth = 1) :
    Scan.Alike strict bounded v rel (.ofSpan (doc.spanOf v.start stop) doc) (.ofSpan (doc'.spanOf (v.start + v.shift) stop') doc') := by
  have hcursor := h.alike_start hstyle (hpens _)
  have hpos := Cursor.pos_start h.shows.wellFormed h.startsLine h.lt_stop h.boundary
  have hpos' := Cursor.pos_start h.shows.wellFormed' h.startsLine' h.lt_stop' h.boundary'
  have hanew := fun hstrict =>
    anew_ofSpan ((Cursor.state_start h.shows.wellFormed h.startsLine h.lt_stop h.boundary).trans (hdefault hstrict))
  have hanew' := fun hstrict => anew_ofSpan
    ((Cursor.state_start h.shows.wellFormed' h.startsLine' h.lt_stop' h.boundary').trans (hstyle.trans (hdefault hstrict)))
  rw [← Cursor.line_start h.shows.wellFormed h.startsLine h.lt_stop h.boundary,
    ← Cursor.line_start h.shows.wellFormed' h.startsLine' h.lt_stop' h.boundary'] at habove
  have hrest := rest_ofSpan habove
  have hlt : (Cursor.start doc (doc.spanOf v.start stop)).pos < v.reach := by
    have := h.lt_limit
    have := v.limit_le_reach
    omega
  have hparens : (Scan.ofSpan (doc'.spanOf (v.start + v.shift) stop') doc').parens
      = (Scan.ofSpan (doc.spanOf v.start stop) doc).parens := by rw [hrest]
  exact
    { cursor := cursor_ofSpan hrel hcursor hlt habove.iff
      rest := by
        rw [hparens]
        exact hrest
      parens := fun _ => hparens
      flat := fun _ => depth_ofSpan _ _
      block := hblock
      kept := .of_pos_eq ((pos_ofSpan _ _).trans hpos) hanew
      kept' := .of_pos_eq ((pos_ofSpan _ _).trans hpos') hanew' }

/--
At a line start, a pass that begins there reads back what the line end in front of it has stored.
-/
theorem alike_resume {base : Document} (h : Scan.Alike True True v (Pen.Same v base) s s') (hfits : DepthFits s.lineDepth)
    (hshift : v.shift = 0) (hwhole : v.whole = false) (hlimit : v.start < v.limit) (hpos : s.cursor.pos = v.limit) {stop : Nat}
    (hlt : v.limit < stop) (hbound : IsBoundary base.text stop) (hstop : s.cursor.stop = base.cursorStop stop) :
    Scan.Alike True True (.ofRange s'.cursor.complete v.limit stop stop) (Pen.Late loose v.limit s.cursor.state) s
      (.ofSpan (s'.cursor.complete.spanOf v.limit stop) s'.cursor.complete) := by
  have hresumes := h.cursor.interrupted hshift hwhole hpos hlt hbound hstop
  have hanew := h.kept.anew hresumes.atLineStart (.inl trivial)
  have hstored := (h.kept.stored trivial hresumes.atLineStart).resolve_left (by omega)
  have hloose : loose s.cursor.state = true := by
    rw [hanew.state]
    decide
  have hcursor := hresumes.resume loose hstored.segment_lt hloose
  have hlineEq : (Cursor.start s'.cursor.complete (s'.cursor.complete.spanOf v.limit stop)).line = s.cursor.line :=
    hcursor.line
  have hstate : s'.cursor.complete.lineState (s.cursor.line - 1) = s.cursor.doc.lineState (s.cursor.line - 1) := by
    rw [Document.lineState, hresumes.lineStates_complete, Document.lineState]
  have hlevel : s'.cursor.complete.level (s.cursor.line - 1) = s.cursor.doc.level (s.cursor.line - 1) := by
    rw [Document.level, hresumes.levels_complete, Document.level]
  obtain ⟨own, visible, hown, hpacked⟩ := hstored.level
  have hrest : Scan.ofSpan (s'.cursor.complete.spanOf v.limit stop) s'.cursor.complete
      = { s with cursor := Cursor.start s'.cursor.complete (s'.cursor.complete.spanOf v.limit stop), parens := 0 } := by
    rw [ofSpan_of_pos (by rw [hlineEq]; exact hstored.line_pos), hlineEq, hstate, hlevel, hstored.lineState, hpacked,
      Memory.unpack_pack, depthAfter_packLevel hown hfits.kept, inCommentBlock_packLevel hown hfits.kept, hanew.depth,
      hanew.escaped, hanew.visible]
  rw [hrest]
  exact
    { cursor := hcursor
      rest := rfl
      parens := by
        rw [hanew.state]
        intro hstate
        exact absurd hstate (show Style.default ≠ Style.substitution by decide)
      flat := h.flat
      block := h.block
      kept := .of_pos_eq hpos fun _ => hanew
      kept' := .of_pos_eq hresumes.pos_start fun _ => ⟨hcursor.state.trans hanew.state, hanew.escaped, hanew.visible, hanew.depth⟩ }

end Highlight.Tcl
