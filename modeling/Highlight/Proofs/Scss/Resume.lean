import Highlight.Proofs.Cursor.Resume
import Highlight.Proofs.Locality
import Highlight.Proofs.Scss.Alike
import Highlight.Proofs.Session.Parts
import Highlight.Scss

/-!
SCSS can be interrupted at every line start. Each line starts a token of its own, so all that a step
knows there is the style in front of the line, the character in front of it and the context, which is
the line state.
-/

namespace Highlight.Scss

open LineIndex

variable {strict : Prop} {loose : Style → Bool} {v : View} {rel : Style → Pen → Pen → Prop} {s s' : Scan} {doc doc' : Document}

/--
What a step leaves behind at a line start for a pass that begins there.
-/
structure Scan.Stored (s : Scan) : Prop where
  line_pos : 0 < s.cursor.line
  lineState : s.cursor.doc.lineState (s.cursor.line - 1) = s.context.pack
  prev : s.cursor.pos ≤ s.cursor.doc.size → s.cursor.prev = (s.cursor.doc.byteAt (s.cursor.pos - 1) 0).toNat

/--
What is so with a scan between two steps of a pass from `start` on.
-/
structure Scan.Kept (strict : Prop) (start : Nat) (s : Scan) : Prop where
  begun : s.cursor.pos = start ∨ s.cursor.pen.segment < s.cursor.pos
  stored : strict → s.cursor.atLineStart = true → s.cursor.pos = start ∨ s.Stored

/--
Two scans between two steps, at the same place of the part that a view shows. A pass that is not `strict` can begin in
any token. The lines above have the same states from the first one of the part on.
-/
structure Scan.Alike (strict : Prop) (v : View) (rel : Style → Pen → Pen → Prop) (s s' : Scan) : Prop where
  cursor : s.cursor.Alike v rel s'.cursor
  context : s'.context = s.context
  isWord_prev : isWord s'.cursor.prev = isWord s.cursor.prev
  colon_prev : s'.cursor.prev.is ':' = s.cursor.prev.is ':'
  fits : strict → s.context.Fits
  packable : strict → Packable s.cursor.state
  tight : s.cursor.atLineStart = false → ∀ style, rel style s.cursor.pen s'.cursor.pen
  single : strict → ∀ page, v.encoding ≠ .doubleByte page
  lineStates : ∀ l : Nat, v.first ≤ l → l < s.cursor.line →
    s'.cursor.doc.lineStates[l + v.shift]? = s.cursor.doc.lineStates[l]?
  kept : s.Kept strict v.start
  kept' : s'.Kept strict (v.start + v.shift)

/--
Store the context if the line ends.
-/
def Scan.storeLine (s : Scan) : Cursor :=
  if s.cursor.atLineEnd then s.cursor.setLineState s.cursor.line s.context.pack else s.cursor

theorem Scan.step_eq (keywords : Keywords) (s : Scan) :
    s.step keywords
      = let t := (if s.cursor.atLineStart then s.withCursor s.cursor.commit else s).stepInToken keywords
        t.withCursor t.storeLine.forward := rfl

theorem Scan.kept_forward (h : s.cursor.Settled) (hmore : s.cursor.more = true)
    (hsingle : strict → ∀ page, s.cursor.doc.encoding ≠ .doubleByte page) (start : Nat) :
    (s.withCursor s.storeLine.forward).Kept strict start := by
  have hmore' : s.storeLine.more = true := by
    unfold storeLine
    split <;> exact hmore
  have hwidth := h.width_pos
  have hsegment := h.segment_le
  constructor
  . right
    show s.storeLine.forward.pen.segment < s.storeLine.forward.pos
    rw [Cursor.pen_forward hmore', Cursor.pos_forward hmore']
    unfold storeLine
    split
    . show s.cursor.pen.segment < s.cursor.pos + s.cursor.width
      omega
    . omega
  . intro hstrict hstart
    have hend : s.cursor.atLineEnd = true := by
      have hstart : s.storeLine.forward.atLineStart = true := hstart
      rw [Cursor.atLineStart_forward hmore'] at hstart
      unfold storeLine at hstart
      split at hstart
      . next hend => exact hend
      . exact hstart
    have hstore : s.storeLine = s.cursor.setLineState s.cursor.line s.context.pack := if_pos hend
    have hline : s.storeLine.forward.line = s.cursor.line + 1 := by
      rw [Cursor.line_forward hmore', hstore]
      exact if_pos hend
    have hdoc : s.storeLine.forward.doc = s.cursor.doc.setLineState s.cursor.line s.context.pack := by
      rw [Cursor.doc, Cursor.pen_forward hmore', hstore]
      rfl
    have hlt : s.cursor.line < s.cursor.doc.lineCount := by
      have := h.pos_le hmore
      rw [h.line, if_neg (by omega)]
      exact h.wellFormed.lineOf_lt _
    refine .inr ⟨?_, ?_, ?_⟩
    . show 0 < s.storeLine.forward.line
      omega
    . show s.storeLine.forward.doc.lineState (s.storeLine.forward.line - 1) = s.context.pack
      rw [hdoc, hline, Nat.add_sub_cancel]
      exact Document.lineState_setLineState h.wellFormed hlt _
    . show s.storeLine.forward.pos ≤ s.storeLine.forward.doc.size →
        s.storeLine.forward.prev = (s.storeLine.forward.doc.byteAt (s.storeLine.forward.pos - 1) 0).toNat
      rw [Cursor.pos_forward hmore', Cursor.prev_forward hmore', hdoc, hstore]
      have hcur := h.cur_of_atLineEnd (hsingle hstrict) hend
      exact hcur

namespace Scan.Alike

theorem inside (hrel : v.Closed loose rel) (h : Scan.Alike strict v rel s s') (hin : s.cursor.pos < v.reach) :
    Scan.Inside strict v (Pen.Tight rel) (if s.cursor.atLineStart then s.withCursor s.cursor.commit else s)
      (if s'.cursor.atLineStart then s'.withCursor s'.cursor.commit else s') := by
  rw [h.cursor.atLineStart hin]
  split
  . refine ⟨h.cursor.commit_tight hrel, hin, h.context, h.isWord_prev, h.colon_prev, h.fits, h.packable, ?_⟩
    show ∀ l : Nat, v.first ≤ l → l < s.cursor.line →
      (s'.cursor.pen.colourTo _ _).doc.lineStates[l + v.shift]? = (s.cursor.pen.colourTo _ _).doc.lineStates[l]?
    rw [Pen.lineStates_colourTo, Pen.lineStates_colourTo]
    exact h.lineStates
  . next hstart =>
    exact ⟨h.cursor.tight (h.tight (Bool.eq_false_iff.mpr hstart)), hin, h.context, h.isWord_prev, h.colon_prev, h.fits,
      h.packable, h.lineStates⟩

theorem storeLine (hrel : v.Closed loose rel) (h : Scan.Inside strict v rel s s') :
    Cursor.Alike v rel s.storeLine s'.storeLine := by
  unfold Scan.storeLine
  rw [h.cursor.atLineEnd h.lt_reach, h.context, h.cursor.line]
  split
  . exact h.cursor.setLineState hrel h.cursor.first_le (h.cursor.line_lt_last h.lt_reach) _
  . exact h.cursor

/--
Behind a line end, one more line has the same state.
-/
theorem lineStates_forward (h : Scan.Inside strict v rel s s') {l : Nat} (hfirst : v.first ≤ l) (hl : l < s.storeLine.forward.line) :
    s'.storeLine.forward.doc.lineStates[l + v.shift]? = s.storeLine.forward.doc.lineStates[l]? := by
  have hmore := h.cursor.more h.lt_reach
  have hlast := h.cursor.line_lt_last h.lt_reach
  have hcount := h.cursor.shows.last_le
  have hcount' := h.cursor.shows.last_le'
  rw [Cursor.doc_forward, Cursor.doc_forward]
  unfold Scan.storeLine at hl ⊢
  rw [h.cursor.atLineEnd h.lt_reach]
  split at hl
  . next hend =>
    have hmore : (s.cursor.setLineState s.cursor.line s.context.pack).more = true := hmore
    have hline := (Cursor.line_forward hmore).trans (if_pos hend)
    have hl : l < s.cursor.line + 1 := hline ▸ hl
    rw [if_pos hend, if_pos hend]
    show (s'.cursor.doc.setLineState s'.cursor.line s'.context.pack).lineStates[l + v.shift]?
      = (s.cursor.doc.setLineState s.cursor.line s.context.pack).lineStates[l]?
    rw [Document.getElem?_setLineState, Document.getElem?_setLineState, h.cursor.line, h.context]
    split
    . next heq =>
      rw [if_pos (by omega), Array.getElem?_eq_getElem (by rw [h.cursor.shows.wellFormed'.lineStates]; omega),
        Array.getElem?_eq_getElem (by rw [h.cursor.shows.wellFormed.lineStates]; omega)]
      rfl
    . rw [if_neg (by omega)]
      exact h.lineStates l hfirst (by omega)
  . next hend =>
    rw [Cursor.line_forward hmore, if_neg hend] at hl
    rw [if_neg hend, if_neg hend]
    exact h.lineStates l hfirst hl

/--
One step. It goes forward, and at a line end it stores the context.
-/
theorem step (hrel : v.Closed loose rel) (hloose : loose 255 = false) (h : Scan.Alike strict v rel s s')
    (hin : s.cursor.pos < v.reach) (keywords : Keywords) :
    Scan.Alike strict v rel (s.step keywords) (s'.step keywords) ∧ v.start < (s.step keywords).cursor.pos := by
  have hinside := (h.inside hrel hin).stepInToken (hrel.tight hloose) keywords
  rw [step_eq, step_eq]
  simp only
  generalize Scan.stepInToken keywords (if s.cursor.atLineStart then s.withCursor s.cursor.commit else s) = t at *
  generalize Scan.stepInToken keywords (if s'.cursor.atLineStart then s'.withCursor s'.cursor.commit else s') = t' at *
  have hmore := hinside.cursor.more hinside.lt_reach
  have hmore' := hinside.cursor.more' hinside.lt_reach
  have hstore := storeLine (hrel.tight hloose) hinside
  have hpos : t.storeLine.pos = t.cursor.pos := by
    unfold Scan.storeLine
    split <;> rfl
  have hin : t.storeLine.pos < v.reach := by
    rw [hpos]
    exact hinside.lt_reach
  have hforward := hstore.forward hin
  have hprev := hstore.prev_forward hin
  have hwidth := hstore.settled.width_pos
  have hlt := hstore.start_le
  refine
    ⟨{ cursor := hforward.loosen
       context := hinside.context
       isWord_prev := congrArg isWord hprev
       colon_prev := congrArg (Code.is · ':') hprev
       fits := hinside.fits
       packable := ?_
       tight := fun _ style => hforward.pen style
       single := h.single
       lineStates := fun _ hfirst hl => lineStates_forward hinside hfirst hl
       kept := Scan.kept_forward hinside.cursor.settled hmore ?_ _
       kept' := Scan.kept_forward hinside.cursor.settled' hmore' ?_ _ }, ?_⟩
  . show strict → Packable t.storeLine.forward.state
    have hstate : t.storeLine.state = t.cursor.state := by
      unfold Scan.storeLine
      split <;> rfl
    rw [Cursor.state_forward (hstore.more hin), hstate]
    exact hinside.packable
  . intro hstrict page
    rw [hinside.cursor.shows.encoding]
    exact h.single hstrict page
  . intro hstrict page
    rw [hinside.cursor.shows.encoding']
    exact h.single hstrict page
  . show v.start < t.storeLine.forward.pos
    rw [Cursor.pos_forward (hstore.more hin)]
    omega

theorem second (h : Scan.Alike strict v rel s s') : Scan.Alike strict v.second Pen.Equal s' s' where
  cursor := h.cursor.second
  context := rfl
  isWord_prev := rfl
  colon_prev := rfl
  fits := by
    rw [h.context]
    exact h.fits
  packable := by
    rw [h.cursor.state]
    exact h.packable
  tight := fun _ _ => rfl
  single := h.single
  lineStates := fun _ _ _ => rfl
  kept := h.kept'
  kept' := h.kept'

theorem behind {rel' : Style → Pen → Pen → Prop} (h : Scan.Alike strict v rel s s') (hin : s.cursor.pos < v.reach)
    (hrel : rel' s.cursor.state s.cursor.pen s'.cursor.pen)
    (htight : s.cursor.atLineStart = false → ∀ style, rel' style s.cursor.pen s'.cursor.pen) :
    Scan.Alike strict (v.behind s.cursor.doc s.cursor.pos) rel' s s' where
  cursor := (h.cursor.fromPos hin).of_rel hrel
  context := h.context
  isWord_prev := h.isWord_prev
  colon_prev := h.colon_prev
  fits := h.fits
  packable := h.packable
  tight := htight
  single := h.single
  lineStates := fun l hl => h.lineStates l (Nat.le_trans (h.cursor.shows.first_le h.cursor.start_le) hl)
  kept := ⟨.inl rfl, fun _ _ => .inl rfl⟩
  kept' := ⟨.inl h.cursor.pos, fun _ _ => .inl h.cursor.pos⟩

end Scan.Alike

theorem cursor_ofSpan (span : Span) (doc : Document) : (Scan.ofSpan span doc).cursor = Cursor.start doc span := rfl

theorem context_ofSpan (span : Span) (doc : Document) :
    (Scan.ofSpan span doc).context = .before doc (Cursor.start doc span).line := rfl

/--
Passes over the same lines start alike if the line above and the style in front say the same.
-/
theorem alike_ofSpan {stop stop' : Nat} (h : v.Begins doc doc' stop stop')
    (hrel : ∀ style, rel style ⟨doc, v.start⟩ ⟨doc', v.start + v.shift⟩)
    (hstyle : doc'.styleBefore (v.start + v.shift) = doc.styleBefore v.start)
    (hcontext : Context.before doc' (doc'.lineOf (v.start + v.shift)) = Context.before doc (doc.lineOf v.start))
    (hfits : strict → (Context.before doc (doc.lineOf v.start)).Fits) (hpackable : strict → Packable (doc.styleBefore v.start))
    (hsingle : strict → ∀ page, v.encoding ≠ .doubleByte page) :
    Scan.Alike strict v rel (.ofSpan (doc.spanOf v.start stop) doc) (.ofSpan (doc'.spanOf (v.start + v.shift) stop') doc') := by
  have hcursor := h.alike_start hstyle (hrel _)
  have hline := Cursor.line_start h.shows.wellFormed h.startsLine h.lt_stop h.boundary
  have hline' := Cursor.line_start h.shows.wellFormed' h.startsLine' h.lt_stop' h.boundary'
  have hprev : ∀ f : Code → Bool, f 0x0A = f 0 →
      f (Cursor.start doc' (doc'.spanOf (v.start + v.shift) stop')).prev
        = f (Cursor.start doc (doc.spanOf v.start stop)).prev := by
    intro f hf
    rw [Cursor.prev_start h.shows.wellFormed h.startsLine h.lt_stop h.boundary,
      Cursor.prev_start h.shows.wellFormed' h.startsLine' h.lt_stop' h.boundary']
    have hlt := h.lt_limit
    by_cases hzero : 0 < v.start
    . rw [if_pos hzero, if_pos (by omega), show v.start + v.shift - 1 = v.start - 1 + v.shift by omega,
        h.shows.byteAt (.inl (by omega))]
    . rw [if_neg hzero]
      split
      . rw [Document.byteAt, h.shows.lead (v.start + v.shift - 1) (by omega)]
        exact hf
      . rfl
  have hpos := Cursor.pos_start h.shows.wellFormed h.startsLine h.lt_stop h.boundary
  have hpos' := Cursor.pos_start h.shows.wellFormed' h.startsLine' h.lt_stop' h.boundary'
  refine
    { cursor := hcursor
      context := ?_
      isWord_prev := hprev isWord (by decide)
      colon_prev := hprev (Code.is · ':') (by decide)
      fits := ?_
      packable := ?_
      tight := ?_
      single := hsingle
      lineStates := ?_
      kept := ⟨.inl hpos, fun _ _ => .inl hpos⟩
      kept' := ⟨.inl hpos', fun _ _ => .inl hpos'⟩ }
  . rw [context_ofSpan, context_ofSpan, hline, hline', hcontext]
  . rw [context_ofSpan, hline]
    exact hfits
  . rw [cursor_ofSpan, Cursor.state_start h.shows.wellFormed h.startsLine h.lt_stop h.boundary]
    exact hpackable
  . intro hfalse
    rw [cursor_ofSpan, Cursor.atLineStart_start h.shows.wellFormed h.startsLine h.lt_stop h.boundary] at hfalse
    cases hfalse
  . -- No line of the part is above the first one.
    intro l hl hlt
    have hlt : l < (Cursor.start doc (doc.spanOf v.start stop)).line := hlt
    rw [hline, ← h.shows.first] at hlt
    omega

/--
At a line start, a pass that begins there finds what the step in front of it has left.
-/
theorem alike_resume {base : Document} (h : Scan.Alike True v (Pen.Same v base) s s') (hshift : v.shift = 0)
    (hwhole : v.whole = false) (hlimit : v.start < v.limit) (hpos : s.cursor.pos = v.limit) {stop : Nat}
    (hlt : v.limit < stop) (hbound : IsBoundary base.text stop) (hstop : s.cursor.stop = base.cursorStop stop) :
    Scan.Alike True (.ofRange s'.cursor.complete v.limit stop stop)
      (Pen.Late (fun style => decide (Packable style)) v.limit s.cursor.state) s
      (.ofSpan (s'.cursor.complete.spanOf v.limit stop) s'.cursor.complete) := by
  have hrest := h.cursor.interrupted hshift hwhole hpos hlt hbound hstop
  have hcursor := hrest.resume (fun style => decide (Packable style)) (h.kept.begun.resolve_left (by omega))
    (decide_eq_true (h.packable trivial))
  have hstored := (h.kept.stored trivial hrest.atLineStart).resolve_left (by omega)
  have hprev := hrest.prev_start (by omega) (hstored.prev hrest.pos_le_size)
  have hcontext : (Scan.ofSpan (s'.cursor.complete.spanOf v.limit stop) s'.cursor.complete).context = s.context := by
    have hlineEq : (Cursor.start s'.cursor.complete (s'.cursor.complete.spanOf v.limit stop)).line = s.cursor.line := by
      have := hcursor.line
      exact this
    rw [context_ofSpan, hlineEq, Context.before, Document.lineStateAbove?, if_pos hstored.line_pos]
    show Context.unpack (s'.cursor.complete.lineState (s.cursor.line - 1)) = s.context
    rw [Document.lineState, hrest.lineStates_complete, ← Document.lineState, hstored.lineState, Context.unpack_pack (h.fits trivial)]
  exact
    { cursor := hcursor
      context := hcontext
      isWord_prev := congrArg isWord hprev
      colon_prev := congrArg (Code.is · ':') hprev
      fits := h.fits
      packable := h.packable
      tight := by
        intro hfalse
        rw [hrest.atLineStart] at hfalse
        cases hfalse
      single := by
        intro _ page hpage
        exact h.single trivial page (h.cursor.shows.encoding.symm.trans (hrest.sameSource.encoding.symm.trans hpage))
      lineStates := fun _ _ _ => congrArg (·[_]?) hrest.lineStates_complete
      kept := ⟨.inl hpos, fun _ _ => .inl hpos⟩
      kept' := ⟨.inl hrest.pos_start, fun _ _ => .inl hrest.pos_start⟩ }

section Levels

theorem levels_leaveComment (s : Scan) : s.leaveComment.cursor.doc.levels = s.cursor.doc.levels := by
  unfold Scan.leaveComment
  dsimp only
  split
  . exact (Cursor.levels_forwardSetState _ _).trans (congrArg Document.levels (Cursor.doc_forward _))
  . split
    . exact Cursor.levels_setState _ _
    . rfl

theorem levels_leaveOperator (s : Scan) : s.leaveOperator.cursor.doc.levels = s.cursor.doc.levels := by
  unfold Scan.leaveOperator
  split
  . exact Cursor.levels_setState _ _
  . rfl

theorem levels_classify (keywords : Keywords) (s : Scan) : (s.classify keywords).cursor.doc.levels = s.cursor.doc.levels := by
  unfold Scan.classify
  dsimp only
  split <;> rfl

theorem levels_leaveSelector (s : Scan) : s.leaveSelector.cursor.doc.levels = s.cursor.doc.levels := by
  unfold Scan.leaveSelector
  dsimp only
  split
  . exact Cursor.levels_setState _ _
  . rfl

theorem levels_startComment (style : Style) (s : Scan) : (s.startComment style).cursor.doc.levels = s.cursor.doc.levels :=
  (congrArg Document.levels (Cursor.doc_forward _)).trans (Cursor.levels_setState _ _)

theorem levels_start (s : Scan) : s.start.cursor.doc.levels = s.cursor.doc.levels := by
  unfold Scan.start
  dsimp only
  split
  . exact levels_startComment _ _
  . split
    . exact levels_startComment _ _
    . split
      . exact Cursor.levels_setState _ _
      . split
        . exact Cursor.levels_setState _ _
        . rfl

theorem levels_stepOutside (keywords : Keywords) (s : Scan) : (s.stepOutside keywords).cursor.doc.levels = s.cursor.doc.levels := by
  have hleave : (if s.cursor.state == Style.operator then s.leaveOperator else s).cursor.doc.levels = s.cursor.doc.levels := by
    split
    . exact levels_leaveOperator s
    . rfl
  unfold Scan.stepOutside
  rw [← hleave]
  generalize (if s.cursor.state == Style.operator then s.leaveOperator else s) = t
  dsimp only
  split
  . split
    . exact Cursor.levels_setState _ _
    . rfl
  . split
    . exact Cursor.levels_setState _ _
    . rw [levels_start, levels_leaveSelector, levels_classify]

theorem levels_stepInString (keywords : Keywords) (quote : Code) (s : Scan) :
    (s.stepInString keywords quote).cursor.doc.levels = s.cursor.doc.levels := by
  unfold Scan.stepInString
  split
  . exact (levels_stepOutside keywords _).trans (Cursor.levels_forwardSetState _ _)
  . rfl

theorem levels_stepInToken (keywords : Keywords) (s : Scan) : (s.stepInToken keywords).cursor.doc.levels = s.cursor.doc.levels := by
  rw [← levels_leaveComment s]
  unfold Scan.stepInToken
  generalize s.leaveComment = t
  dsimp only
  split
  . rfl
  . rfl
  . exact levels_stepInString keywords _ t
  . exact levels_stepInString keywords _ t
  . exact levels_stepOutside keywords t

theorem levels_step (keywords : Keywords) (s : Scan) : (s.step keywords).cursor.doc.levels = s.cursor.doc.levels := by
  have hstart : (if s.cursor.atLineStart then s.withCursor s.cursor.commit else s).cursor.doc.levels = s.cursor.doc.levels := by
    split
    . exact Cursor.levels_commit s.cursor
    . rfl
  have hstore : ∀ t : Scan, t.storeLine.forward.doc.levels = t.cursor.doc.levels := by
    intro t
    rw [Cursor.doc_forward]
    unfold Scan.storeLine
    split <;> rfl
  rw [Scan.step_eq, ← hstart]
  exact (hstore _).trans (levels_stepInToken keywords _)

/--
Colouring writes no levels.
-/
theorem levels_colour (keywords : Keywords) (span : Span) (doc : Document) : (colour keywords span doc).levels = doc.levels := by
  have hrun := iterates_repeatWhile (fun s : Scan => s.cursor.more) (Scan.step keywords) (Scan.ofSpan span doc).cursor.remaining
    (Scan.ofSpan span doc)
  have hlevels := hrun.invariant (fun s => s.cursor.doc.levels = doc.levels) (fun s _ hs => (levels_step keywords s).trans hs) rfl
  exact (Cursor.levels_commit _).trans hlevels

end Levels

/--
The pass of SCSS, which does not depend on options. If it is not `strict`, it can begin in any token.
-/
def pass (strict : Prop) (loose : Style → Bool) (keywords : Keywords) : Colouring Scan where
  colour doc start stop := colour keywords (doc.spanOf start stop) doc
  start doc start stop := .ofSpan (doc.spanOf start stop) doc
  cursor := Scan.cursor
  step := Scan.step keywords
  loose := loose
  goesOn doc pos doc' pos' := doc'.styleBefore pos' = doc.styleBefore pos
    ∧ Context.before doc' (doc'.lineOf pos') = Context.before doc (doc.lineOf pos)
  alike := Scan.Alike strict
  Storable _ := True
  rank s := s.cursor.remaining

/--
The colouring of SCSS, which can be interrupted.
-/
def colouring (keywords : Keywords) : Colouring Scan :=
  pass True (fun style => decide (Packable style)) keywords

theorem before_of_agree {line : Nat} (h : ∀ l : Nat, l < line → doc'.lineStates[l]? = doc.lineStates[l]?) :
    Context.before doc' line = Context.before doc line := by
  unfold Context.before Document.lineStateAbove?
  split
  . rw [Document.lineState, Document.lineState, h (line - 1) (by omega)]
  . rfl

theorem lawfulSteps_pass (hloose : loose 255 = false) (keywords : Keywords) : (pass strict loose keywords).LawfulSteps where
  cursor_alike := fun h => h.cursor
  alike_second := fun h => h.second
  storable_alike := fun _ _ => trivial
  alike_step := fun hrel _ hin h => (h.step hrel hloose hin keywords).1
  rank_step := by
    intro v s hshift _ hin h
    have hshift : (v.behind s.cursor.doc s.cursor.pos).shift = 0 := hshift
    have hclosed : View.Closed _ (fun _ => false) _ := View.closed_equal hshift
    have hbehind : Scan.Alike strict (v.behind s.cursor.doc s.cursor.pos) Pen.Equal s s := h.behind hin rfl fun _ _ => rfl
    obtain ⟨hstep, hlt⟩ := hbehind.step hclosed rfl hin keywords
    have hstop : (s.step keywords).cursor.stop = s.cursor.stop := hstep.cursor.stop.trans h.cursor.stop.symm
    have hmore := h.cursor.more hin
    have hlt : s.cursor.pos < (s.step keywords).cursor.pos := hlt
    simp only [Cursor.more, decide_eq_true_eq] at hmore
    show (s.step keywords).cursor.stop - (s.step keywords).cursor.pos < s.cursor.stop - s.cursor.pos
    omega

theorem lawfulPass (hloose : loose 255 = false) (keywords : Keywords) : (pass strict loose keywords).LawfulPass where
  toLawfulSteps := lawfulSteps_pass hloose keywords
  colour_eq := by
    intro doc start stop t _ _ _ _ hgood hends
    have hloop := (lawfulSteps_pass hloose keywords).ends_repeatWhile hgood (fun _ => Nat.le_refl _)
    rw [hends.1.end_unique hends.2 hloop.1 hloop.2]
    rfl
  goesOn_of_agree := by
    intro doc doc' start hdoc hsame hstyles hstates _
    refine ⟨Document.styleBefore_congr hstyles, ?_⟩
    rw [hsame.lineOf]
    exact before_of_agree hstates
  alike_start := by
    intro v rel doc doc' stop stop' _ hbegins hgoes hgood hrel
    obtain ⟨v₁, _, _, h⟩ := hgood.alike
    have hfits := h.fits
    have hpackable := h.packable
    have hencoding := h.cursor.shows.encoding
    have hpen := Cursor.pen_start hbegins.shows.wellFormed hbegins.startsLine hbegins.lt_stop hbegins.boundary
    simp only [pass, context_ofSpan, cursor_ofSpan, Cursor.doc, hpen,
      Cursor.line_start hbegins.shows.wellFormed hbegins.startsLine hbegins.lt_stop hbegins.boundary,
      Cursor.state_start hbegins.shows.wellFormed hbegins.startsLine hbegins.lt_stop hbegins.boundary]
      at hfits hpackable hencoding
    refine alike_ofSpan hbegins hrel hgoes.1 hgoes.2 hfits hpackable ?_
    intro hstrict page hpage
    exact h.single hstrict page (hencoding.symm.trans (hbegins.shows.encoding.trans hpage))

/--
SCSS can be interrupted at every line start.
-/
theorem lawful_colouring (keywords : Keywords) : (colouring keywords).Lawful where
  toLawfulPass := lawfulPass rfl keywords
  resume := by
    intro v base s t stop _ hshift hwhole hstop hlimit h hmore hlt hbound hat
    have hpos := h.cursor.pos_eq_reach (by omega) hmore
    rw [View.reach_of_open hwhole] at hpos
    exact ⟨_, alike_resume h hshift hwhole hlimit hpos hlt hbound hat⟩

/--
What SCSS leaves in front of a line depends on the text in front of it only.
-/
theorem forward_colouring (keywords : Keywords) : (colouring keywords).Forward where
  toLawfulPass := lawfulPass rfl keywords
  loose_of_reach := fun h _ => decide_eq_true (h.packable trivial)
  alike_behind := fun h hin hstart hrel => h.behind hin hrel fun hfalse => absurd (hstart.symm.trans hfalse) (by decide)

/--
So do the line states that it stores there.
-/
theorem local_colouring (keywords : Keywords) : (colouring keywords).Local True where
  toLawful := lawful_colouring keywords
  loose_of_reach := (forward_colouring keywords).loose_of_reach
  alike_behind := (forward_colouring keywords).alike_behind
  lineStates_of_alike := by
    intro _ v rel s s' hshift h l hl hlt
    have := h.lineStates l hl hlt
    rwa [hshift] at this
  goesOn_of_front := by
    intro doc doc' pos _ hline hstyles hstates
    refine ⟨Document.styleBefore_congr hstyles, ?_⟩
    rw [hline]
    exact before_of_agree (hstates trivial)

theorem good_pass (keywords : Keywords) (hdoc : doc.WellFormed) {start stop : Nat} (hstart : startsLine doc.text start = true)
    (hlt : start < stop) (hstop : IsBoundary doc.text stop) (hfits : strict → (Context.before doc (doc.lineOf start)).Fits)
    (hpackable : strict → Packable (doc.styleBefore start)) (hsingle : strict → ∀ page, doc.encoding ≠ .doubleByte page) :
    (pass strict loose keywords).Good ((pass strict loose keywords).start doc start stop) where
  alike := by
    have hbegins := View.Begins.ofRange hdoc (.refl doc) hstart hlt hstop (Nat.le_refl stop) hstop
    exact ⟨.ofRange doc start stop stop, rfl, Colouring.LawfulPass.stop_ofRange doc start stop,
      alike_ofSpan hbegins (fun _ => rfl) rfl rfl hfits hpackable hsingle⟩
  storable := fun _ _ => trivial

theorem good_start_ofText (keywords : Keywords) {doc : Document} (hdoc : doc.WellFormed) (hpos : 0 < doc.size)
    (hsingle : ∀ page, doc.encoding ≠ .doubleByte page) :
    (colouring keywords).Good ((colouring keywords).start doc 0 doc.size) := by
  refine good_pass keywords hdoc startsLine_zero hpos (.inr rfl) ?_ (fun _ => show Packable 0 by decide) (fun _ => hsingle)
  intro _
  rw [hdoc.lineOf_zero]
  exact Context.fits_empty

theorem drives_pass {session : Session} (h : session.lexer = lexer) : (pass strict loose session.keywords).Drives session := by
  intro doc span start stop hdoc hstart hlt hstop hspan
  rw [h]
  dsimp only [lexer, pass]
  rw [← hdoc.wholeLines_spanOf hstart hlt hstop] at hspan
  unfold colour Scan.ofSpan
  rw [Cursor.start_congr hspan]

theorem drives_colouring {session : Session} (h : session.lexer = lexer) : (colouring session.keywords).Drives session :=
  drives_pass h

/--
The context that a pass reads back at a line start is the one that a pass over all of the text has there.
-/
theorem exists_context {session : Session} (hsession : session.lexer = lexer) (hdoc : doc.WellFormed)
    (hsingle : ∀ page, doc.encoding ≠ .doubleByte page) {pos : Nat} (hpos : 0 < pos) (hlt : pos < doc.size)
    (hstart : startsLine doc.text pos = true) :
    ∃ s, Iterates (·.cursor.more) (Scan.step session.keywords) (.ofSpan (doc.spanOf 0 doc.size) doc) s ∧ s.cursor.pos = pos
      ∧ (Scan.ofSpan ((session.colour doc 0 pos).spanOf pos doc.size) (session.colour doc 0 pos)).context = s.context := by
  have hlawful := lawful_colouring session.keywords
  have hgood := good_start_ofText session.keywords hdoc (Nat.lt_of_le_of_lt (Nat.zero_le _) hlt) hsingle
  obtain ⟨s, opened, hrun, hat, _, h⟩ := hlawful.exists_resume hdoc startsLine_zero hpos hstart hlt (.inr rfl) hgood
  rw [← Colouring.Drives.colour_eq (fun {_ _ _ _} => drives_colouring hsession) hdoc hpos (.inl hstart)] at h
  exact ⟨s, hrun, hat, h.context⟩

/--
Colouring a text of SCSS in parts, whichever its cuts are, leaves what colouring it at once does: its
styles and its line states. The line states keep the context as it is.
-/
theorem colourInParts_eq_colour (session : Session) (hsession : session.lexer = lexer) (text : Array UInt8)
    (encoding : Encoding) (hencoding : encoding = .singleByte ∨ encoding = .utf8) (options : Options) (cuts : List Nat)
    (hcuts : cuts.Pairwise (· ≤ ·)) :
    session.colourInParts (.fresh text encoding options) cuts
        = session.colour (.fresh text encoding options) 0 text.size
      ∧ ∀ pos, 0 < pos → pos < text.size → startsLine text pos = true →
        let doc := Document.fresh text encoding options
        let part := session.colour doc 0 pos
        ∃ s, Iterates (·.cursor.more) (Scan.step session.keywords) (.ofSpan (doc.spanOf 0 text.size) doc) s
          ∧ s.cursor.pos = pos ∧ (Scan.ofSpan (part.spanOf pos text.size) part).context = s.context := by
  have hdoc := Document.wellFormed_fresh text encoding options
  have hsingle : ∀ page, encoding ≠ .doubleByte page := by
    intro page hpage
    rcases hencoding with h | h <;> rw [h] at hpage <;> cases hpage
  refine ⟨Colouring.colourInParts_eq (lawful_colouring session.keywords) (drives_colouring hsession) hdoc
    (fun hpos => good_start_ofText session.keywords hdoc hpos hsingle) hcuts, ?_⟩
  intro pos hpos hlt hstart
  exact exists_context hsession hdoc hsingle hpos hlt hstart

/--
A comment over two lines and a block, with cuts in the comment.
-/
theorem colourInParts_eq_colour_comment :
    let session := Session.ofLexer lexer
    let text := "a/*\n*/\x7bb:c\n\x7d".toUTF8.data
    session.colourInParts (.fresh text .utf8 .empty) [2, 7] = session.colour (.fresh text .utf8 .empty) 0 text.size :=
  (colourInParts_eq_colour (.ofLexer lexer) rfl _ .utf8 (.inr rfl) .empty [2, 7] (by decide)).1

end Highlight.Scss
