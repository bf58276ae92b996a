import Highlight.Proofs.Cursor.Resume
import Highlight.Proofs.Locality
import Highlight.Proofs.R.Alike
import Highlight.Proofs.Session.Parts
import Highlight.R

/-!
R can be interrupted at every line start, and in the middle of a step: where a special operator ends with
its line, the step goes on at the next line as one would that begins there.
-/

namespace Highlight.R

open LineIndex

variable {strict : Prop} {loose' : Style → Bool} {v : View} {rel : Style → Pen → Pen → Prop} {c c' d : Cursor} {doc doc' : Document}

/--
What is so with a cursor at a line start, where a pass from `start` on has come to it. Either the open
token goes over the line end, or a special operator has ended there. A pass that is not `strict` can begin in any token.
-/
structure Kept (strict : Prop) (start : Nat) (c : Cursor) : Prop where
  loose : strict → c.atLineStart = true → loose c.state = true
  begun : c.atLineStart = true → c.pos = start ∨ c.pen.segment < c.pos
    ∨ (c.state = Style.default ∧ c.doc.styleBefore c.pos = Style.specialUnclosed)

/--
Two cursors between two steps, at the same place of the part that a view shows.
-/
structure Alike (strict : Prop) (v : View) (rel : Style → Pen → Pen → Prop) (c c' : Cursor) : Prop where
  cursor : c.Alike v rel c'
  token : strict → isToken c.state = true
  kept : Kept strict v.start c
  kept' : Kept strict (v.start + v.shift) c'

/--
A step, or its front if it comes over a line end.
-/
def advance (keywords : Keywords) (c : Cursor) : Cursor :=
  if endsSpecial c then leave keywords c else step keywords c

theorem leave_of_endsSpecial (keywords : Keywords) (h : endsSpecial c = true) :
    leave keywords c = (c.changeState Style.specialUnclosed).forwardSetState Style.default := by
  simp only [endsSpecial, Bool.and_eq_true, beq_iff_eq, Bool.not_eq_true'] at h
  unfold leave
  rw [h.1]
  show (if c.sees '%' = true then _ else if c.atLineEnd = true then _ else c) = _
  rw [h.2.1, h.2.2, if_neg Bool.false_ne_true, if_pos rfl]

/--
Behind the end of a special operator a step goes on as one that begins there.
-/
theorem step_of_endsSpecial (keywords : Keywords) (h : endsSpecial c = true) :
    step keywords c = advance keywords (leave keywords c) := by
  have hstate : (leave keywords c).state = Style.default := by
    rw [leave_of_endsSpecial keywords h]
    rfl
  rw [step]
  generalize leave keywords c = d at *
  have hnot : endsSpecial d = false := by
    rw [endsSpecial, hstate]
    rfl
  have hleave : leave keywords d = d := by
    unfold leave
    rw [hstate]
    rfl
  rw [advance, hnot, if_neg Bool.false_ne_true, step, hleave]

theorem kept_forward (h : c.Settled) (hmore : c.more = true) (hover : GoesOver strict c) (start : Nat) :
    Kept strict start c.forward where
  loose := by
    intro hstrict
    rw [Cursor.atLineStart_forward hmore, Cursor.state_forward hmore]
    exact hover hstrict
  begun := by
    intro _
    have hsegment := h.segment_le
    have hwidth := h.width_pos
    rw [Cursor.pen_forward hmore, Cursor.pos_forward hmore]
    exact .inr (.inl (by omega))

theorem kept_endsSpecial (h : c.Settled) (hmore : c.more = true) (start : Nat) :
    Kept strict start ((c.changeState Style.specialUnclosed).forwardSetState Style.default) where
  loose := fun _ _ => rfl
  begun := by
    intro _
    have hmore' : (c.changeState Style.specialUnclosed).more = true := hmore
    have hsettled := (h.changeState Style.specialUnclosed).forward hmore'
    have hstate := Cursor.state_forward hmore'
    have hpen := Cursor.pen_forward hmore'
    have hpos := Cursor.pos_forward hmore'
    have hwidth := h.width_pos
    have hsegment := h.segment_le
    unfold Cursor.forwardSetState
    generalize (c.changeState Style.specialUnclosed).forward = d at *
    have hpos : d.pos = c.pos + c.width := hpos
    have hlt : d.pen.segment < d.pos := by
      rw [hpen]
      show c.pen.segment < d.pos
      omega
    right
    by_cases hsize : d.pos ≤ d.doc.size
    . right
      refine ⟨rfl, ?_⟩
      show (d.pen.colourTo d.pos d.state).doc.styleBefore d.pos = _
      rw [hstate]
      exact Pen.styleBefore_colourTo hsettled.wellFormed hlt hsize _
    . left
      show (d.pen.colourTo d.pos d.state).segment < d.pos
      rw [Cursor.doc] at hsize
      rw [Pen.segment_colourTo]
      omega

namespace Alike

/--
One step, or its front. It has moved on.
-/
theorem advance (hrel : v.Closed R.loose rel) (h : R.Alike strict v rel c c') (hin : c.pos < v.reach) (keywords : Keywords) :
    R.Alike strict v rel (advance keywords c) (advance keywords c') ∧ v.start < (advance keywords c).pos := by
  have hmore := h.cursor.more hin
  have hmore' := h.cursor.more' hin
  have hstart := h.cursor.start_le
  have hends : endsSpecial c' = endsSpecial c := by
    rw [endsSpecial, endsSpecial, h.cursor.state, h.cursor.sees hin, h.cursor.atLineEnd hin]
  unfold R.advance
  rw [hends]
  split
  . next hspecial =>
    have hloose : R.loose c.state = false := by
      simp only [endsSpecial, Bool.and_eq_true, beq_iff_eq] at hspecial
      rw [hspecial.1]
      rfl
    have hwidth := h.cursor.settled.width_pos
    rw [leave_of_endsSpecial keywords hspecial, leave_of_endsSpecial keywords (hends.trans hspecial)]
    have hchange := h.cursor.changeState hrel hloose Style.specialUnclosed
    refine
      ⟨{ cursor := (hchange.forward hin).setState hrel Style.default
         token := fun _ => rfl
         kept := kept_endsSpecial h.cursor.settled hmore _
         kept' := kept_endsSpecial h.cursor.settled' hmore' _ }, ?_⟩
    show v.start < (c.changeState Style.specialUnclosed).forward.pos
    rw [Cursor.pos_forward (hchange.more hin)]
    show v.start < c.pos + c.width
    omega
  . next hspecial =>
    have hspecial := Bool.eq_false_iff.mpr hspecial
    obtain ⟨hleave, hover⟩ := Inside.leave hrel ⟨h.cursor, hin, h.token⟩ hspecial keywords
    obtain ⟨hinside, hover⟩ := hleave.enter hrel hover
    unfold step
    generalize enter (leave keywords c) = d at *
    generalize enter (leave keywords c') = d' at *
    have hmore := hinside.cursor.more hinside.lt_reach
    have hmore' := hinside.cursor.more' hinside.lt_reach
    have hwidth := hinside.cursor.settled.width_pos
    have hstart := hinside.cursor.start_le
    have hover' : GoesOver strict d' := by
      unfold GoesOver
      rw [hinside.cursor.state, hinside.cursor.atLineEnd hinside.lt_reach]
      exact hover
    refine
      ⟨{ cursor := hinside.cursor.forward hinside.lt_reach
         token := ?_
         kept := kept_forward hinside.cursor.settled hmore hover _
         kept' := kept_forward hinside.cursor.settled' hmore' hover' _ }, ?_⟩
    . rw [Cursor.state_forward hmore]
      exact hinside.token
    . rw [Cursor.pos_forward hmore]
      omega

theorem second (h : R.Alike strict v rel c c') : R.Alike strict v.second Pen.Equal c' c' where
  cursor := h.cursor.second
  token := by
    rw [h.cursor.state]
    exact h.token
  kept := h.kept'
  kept' := h.kept'

/--
Alike cursors can be looked at from their place on, whatever else their pens have in common.
-/
theorem behind {rel' : Style → Pen → Pen → Prop} (h : R.Alike strict v rel c c') (hin : c.pos < v.reach) (hrel : rel' c.state c.pen c'.pen) :
    R.Alike strict (v.behind c.doc c.pos) rel' c c' where
  cursor := (h.cursor.fromPos hin).of_rel hrel
  token := h.token
  kept := ⟨h.kept.loose, fun _ => .inl rfl⟩
  kept' := ⟨h.kept'.loose, fun _ => .inl h.cursor.pos⟩

end Alike

/--
What a line goes on with, by the style in front of it. A special operator that was not closed is over.
-/
def carried (style : Style) : Style :=
  if style == Style.specialUnclosed then Style.default else style

theorem carried_of_loose {style : Style} (h : loose style = true) : carried style = style := by
  apply if_neg
  intro hspecial
  rw [beq_iff_eq.mp hspecial] at h
  cases h

theorem start_eq (span : Span) (doc : Document) :
    start span doc = (Cursor.start doc span).changeState (carried (Cursor.start doc span).state) := by
  unfold start carried
  dsimp only
  split
  . rfl
  . rfl

/--
At a line start, a cursor has the state that a pass which stops there leaves in front of the line.
-/
theorem Kept.state_eq {start : Nat} (h : Kept True start c) (hsettled : c.Settled) (hstart : c.atLineStart = true)
    (hpos : c.pos ≠ start) (hsize : c.pos ≤ c.doc.size) : c.state = carried (c.complete.styleBefore c.pos) := by
  by_cases hsegment : c.pen.segment < c.pos
  . have hstyle : c.complete.styleBefore c.pos = c.state := Pen.styleBefore_colourTo hsettled.wellFormed hsegment hsize c.state
    rw [hstyle, carried_of_loose (h.loose trivial hstart)]
  -- Nothing has been coloured behind a special operator that has ended with the line.
  . have hends := (h.begun hstart).resolve_left hpos
    obtain ⟨hdefault, hunclosed⟩ := hends.resolve_left hsegment
    have hbefore : c.complete.styleBefore c.pos = c.doc.styleBefore c.pos := by
      apply Document.styleBefore_congr
      intro i hi
      show (c.pen.colourTo c.pos c.state).doc.styles[i]? = _
      rw [Pen.getElem?_styles_colourTo, if_neg (by omega)]
      rfl
    rw [hdefault, hbefore, hunclosed]
    rfl

/--
Passes over the same lines start alike if the style in front is the same.
-/
theorem alike_start {stop stop' : Nat} (h : v.Begins doc doc' stop stop')
    (hpens : ∀ style, rel style ⟨doc, v.start⟩ ⟨doc', v.start + v.shift⟩)
    (hstyle : doc'.styleBefore (v.start + v.shift) = doc.styleBefore v.start)
    (hloose : strict → loose (start (doc.spanOf v.start stop) doc).state = true) :
    Alike strict v rel (start (doc.spanOf v.start stop) doc) (start (doc'.spanOf (v.start + v.shift) stop') doc') := by
  have hcursor := h.alike_start hstyle (hpens _)
  have hpos := Cursor.pos_start h.shows.wellFormed h.startsLine h.lt_stop h.boundary
  have hpos' := Cursor.pos_start h.shows.wellFormed' h.startsLine' h.lt_stop' h.boundary'
  have hpen := Cursor.pen_start h.shows.wellFormed h.startsLine h.lt_stop h.boundary
  have hpen' := Cursor.pen_start h.shows.wellFormed' h.startsLine' h.lt_stop' h.boundary'
  rw [start_eq] at hloose
  rw [start_eq, start_eq, hcursor.state]
  generalize carried (Cursor.start doc (doc.spanOf v.start stop)).state = style at *
  have hchange : Cursor.Alike v rel ((Cursor.start doc (doc.spanOf v.start stop)).changeState style)
      ((Cursor.start doc' (doc'.spanOf (v.start + v.shift) stop')).changeState style) := by
    refine hcursor.of_pen rfl (.refl _) (.refl _) hcursor.settled.segment_le hcursor.settled'.segment_le ?_
    rw [hpen, hpen']
    exact hpens style
  exact
    { cursor := hchange
      token := by
        intro hstrict
        rw [isToken, hloose hstrict]
        rfl
      kept := ⟨fun hstrict _ => hloose hstrict, fun _ => .inl hpos⟩
      kept' := ⟨fun hstrict _ => hloose hstrict, fun _ => .inl hpos'⟩ }

/--
At a line start, a pass that begins there goes on with the same token.
-/
theorem alike_resume {base : Document} (h : Alike True v (Pen.Same v base) c c') (hshift : v.shift = 0)
    (hwhole : v.whole = false) (hlimit : v.start < v.limit) (hpos : c.pos = v.limit) {stop : Nat} (hlt : v.limit < stop)
    (hbound : IsBoundary base.text stop) (hstop : c.stop = base.cursorStop stop) :
    Alike True (.ofRange c'.complete v.limit stop stop) (Pen.Late loose v.limit c.state) c
      (start (c'.complete.spanOf v.limit stop) c'.complete) := by
  have hrest := h.cursor.interrupted hshift hwhole hpos hlt hbound hstop
  have hloose := h.kept.loose trivial hrest.atLineStart
  have hstate : start (c'.complete.spanOf v.limit stop) c'.complete
      = (Cursor.start c'.complete (c'.complete.spanOf v.limit stop)).changeState c.state := by
    have hcomplete : c'.complete = c.complete := by
      rw [hrest.complete_eq, ← hpos]
      rfl
    have hcarried := h.kept.state_eq h.cursor.settled hrest.atLineStart (by omega) hrest.pos_le_size
    rw [hpos, ← hcomplete] at hcarried
    rw [start_eq, hrest.state_start, ← hcarried]
  rw [hstate]
  exact
    { cursor := hrest.resume_changeState loose hloose
      token := h.token
      kept := ⟨h.kept.loose, fun _ => .inl hpos⟩
      kept' := ⟨fun _ _ => hloose, fun _ => .inl hrest.pos_start⟩ }

/--
The pass of R, which does not depend on options. If it is not `strict`, it can begin in any token.
-/
def pass (strict : Prop) (loose : Style → Bool) (keywords : Keywords) : Colouring Cursor where
  colour doc start stop := colour keywords (doc.spanOf start stop) doc
  start doc start stop := R.start (doc.spanOf start stop) doc
  cursor c := c
  step := advance keywords
  loose := loose
  goesOn doc pos doc' pos' := doc'.styleBefore pos' = doc.styleBefore pos
  alike := Alike strict
  Storable _ := True
  rank := Cursor.remaining

/--
The colouring of R, which can be interrupted.
-/
def colouring (keywords : Keywords) : Colouring Cursor :=
  pass True loose keywords

theorem lawfulSteps_pass (hloose : ∀ style, loose' style = true → loose style = true) (keywords : Keywords) :
    (pass strict loose' keywords).LawfulSteps where
  cursor_alike := fun h => h.cursor
  alike_second := fun h => h.second
  storable_alike := fun _ _ => trivial
  alike_step := fun hrel _ hin h => (h.advance (hrel.mono hloose) hin keywords).1
  rank_step := by
    intro v c hshift _ hin h
    have hshift : (v.behind c.doc c.pos).shift = 0 := hshift
    obtain ⟨hstep, hlt⟩ := (h.behind hin rfl).advance (View.closed_equal hshift) hin keywords
    have hstop : (advance keywords c).stop = c.stop := hstep.cursor.stop.trans h.cursor.stop.symm
    have hmore := h.cursor.more hin
    simp only [Cursor.more, decide_eq_true_eq] at hmore
    exact Cursor.remaining_lt hmore hstop hlt

/--
The rest of a step behind the end of a special operator that the pass ends with.
-/
theorem complete_step_of_end (keywords : Keywords) (hend : (leave keywords c).more = false) :
    (step keywords c).more = false ∧ (step keywords c).complete = (leave keywords c).complete := by
  unfold step enter
  generalize leave keywords c = d at *
  split
  . split
    . next style _ =>
      have hend' : (d.setState style).more = false := hend
      refine ⟨(Cursor.forward_of_end hend').2.2.2.1, ?_⟩
      rw [Cursor.complete_forward hend', Cursor.complete_setState]
    . exact ⟨(Cursor.forward_of_end hend).2.2.2.1, Cursor.complete_forward hend⟩
  . exact ⟨(Cursor.forward_of_end hend).2.2.2.1, Cursor.complete_forward hend⟩

/--
The pass takes the steps of the colouring, of which it can take two at once.
-/
theorem complete_repeatWhile (hloose : ∀ style, loose' style = true → loose style = true) {keywords : Keywords} {bound : Nat}
    (hgood : (pass strict loose' keywords).Good c) (hends : (pass strict loose' keywords).Ends c d) (hbound : c.remaining ≤ bound) :
    (repeatWhile Cursor.more (step keywords) bound c).complete = d.complete := by
  have hsteps : (pass strict loose' keywords).LawfulSteps := lawfulSteps_pass hloose keywords
  induction bound using Nat.strongRecOn generalizing c with
  | ind bound ih =>
    cases hmore : c.more with
    | false =>
      obtain rfl := (Iterates.refl c).end_unique hmore hends.1 hends.2
      cases bound with
      | zero => rfl
      | succ bound => rw [repeatWhile, if_neg (by rw [hmore]; decide)]
    | true =>
      have hpos : 0 < c.remaining := by
        simp only [Cursor.more, decide_eq_true_eq] at hmore
        exact Nat.sub_pos_of_lt hmore
      obtain ⟨bound, rfl⟩ : ∃ b, bound = b + 1 := ⟨bound - 1, by omega⟩
      have hgood₁ : (pass strict loose' keywords).Good (advance keywords c) := hsteps.good_step hmore hgood
      have hlt : (advance keywords c).remaining < c.remaining := hsteps.rank_step_lt hmore hgood
      have hrest : Iterates (pass strict loose' keywords).more (pass strict loose' keywords).step (advance keywords c) d :=
        Iterates.rest (.head hmore (.refl _)) hends.1 hends.2
      rw [repeatWhile, if_pos hmore]
      cases hspecial : endsSpecial c with
      | false =>
        have hstep : step keywords c = advance keywords c := by
          rw [advance, hspecial]
          rfl
        rw [hstep]
        exact ih bound (Nat.lt_succ_self _) hgood₁ ⟨hrest, hends.2⟩ (by omega)
      | true =>
        have hleave : advance keywords c = leave keywords c := by rw [advance, if_pos hspecial]
        rw [hleave] at hgood₁ hlt hrest
        cases hmore₁ : (leave keywords c).more with
        | false =>
          obtain ⟨hend, hcomplete⟩ := complete_step_of_end keywords hmore₁
          obtain rfl := (Iterates.refl (leave keywords c)).end_unique hmore₁ hrest hends.2
          rw [← hcomplete]
          cases bound with
          | zero => rfl
          | succ bound => rw [repeatWhile, if_neg (by rw [hend]; decide)]
        | true =>
          have hgood₂ : (pass strict loose' keywords).Good (advance keywords (leave keywords c)) := hsteps.good_step hmore₁ hgood₁
          have hlt₂ : (advance keywords (leave keywords c)).remaining < (leave keywords c).remaining :=
            hsteps.rank_step_lt hmore₁ hgood₁
          have hrest₂ : Iterates (pass strict loose' keywords).more (pass strict loose' keywords).step (advance keywords (leave keywords c)) d :=
            Iterates.rest (.head hmore₁ (.refl _)) hrest hends.2
          rw [step_of_endsSpecial keywords hspecial]
          exact ih bound (Nat.lt_succ_self _) hgood₂ ⟨hrest₂, hends.2⟩ (by omega)

theorem lawfulPass (hloose : ∀ style, loose' style = true → loose style = true) (keywords : Keywords) :
    (pass strict loose' keywords).LawfulPass where
  toLawfulSteps := lawfulSteps_pass hloose keywords
  colour_eq := by
    intro doc start stop t _ _ _ _ hgood hends
    dsimp only [pass]
    unfold colour
    exact complete_repeatWhile hloose hgood hends (Nat.le_refl _)
  goesOn_of_agree := fun _ _ hstyles _ _ => Document.styleBefore_congr hstyles
  alike_start := by
    intro v rel doc doc' stop stop' _ hbegins hgoes hgood hpens
    obtain ⟨v₁, _, _, h⟩ := hgood.alike
    refine R.alike_start hbegins hpens hgoes (fun hstrict => h.kept.loose hstrict ?_)
    show (start (doc.spanOf v.start stop) doc).atLineStart = true
    rw [start_eq]
    exact Cursor.atLineStart_start hbegins.shows.wellFormed hbegins.startsLine hbegins.lt_stop hbegins.boundary

/--
R can be interrupted at every line start.
-/
theorem lawful_colouring (keywords : Keywords) : (colouring keywords).Lawful where
  toLawfulPass := lawfulPass (fun _ => id) keywords
  resume := by
    intro v base c c' stop _ hshift hwhole hstop hlimit h hmore hlt hbound hat
    have hpos := h.cursor.pos_eq_reach (by omega) hmore
    rw [View.reach_of_open hwhole] at hpos
    exact ⟨_, alike_resume h hshift hwhole hlimit hpos hlt hbound hat⟩

theorem forward_colouring (keywords : Keywords) : (colouring keywords).Forward where
  toLawfulPass := lawfulPass (fun _ => id) keywords
  loose_of_reach := fun h hpos => h.kept.loose trivial (h.cursor.atLineStart_of_reach hpos)
  alike_behind := fun h hin _ hrel => h.behind hin hrel

/--
What R leaves in front of a line depends on the text in front of it only.
-/
theorem local_colouring (keywords : Keywords) : (colouring keywords).Local False where
  toLawful := lawful_colouring keywords
  loose_of_reach := (forward_colouring keywords).loose_of_reach
  alike_behind := (forward_colouring keywords).alike_behind
  lineStates_of_alike := nofun
  goesOn_of_front := fun _ _ hstyles _ => Document.styleBefore_congr hstyles

theorem good_pass (keywords : Keywords) (hdoc : doc.WellFormed) {start stop : Nat} (hstart : startsLine doc.text start = true)
    (hlt : start < stop) (hstop : IsBoundary doc.text stop) (hstyle : strict → loose (doc.styleBefore start) = true) :
    (pass strict loose' keywords).Good ((pass strict loose' keywords).start doc start stop) := by
  have hbegins := View.Begins.ofRange hdoc (.refl doc) hstart hlt hstop (Nat.le_refl stop) hstop
  have hpens : ∀ style, Pen.Equal style ⟨doc, start⟩ ⟨doc, start⟩ := fun _ => rfl
  have hloose : strict → loose (R.start (doc.spanOf start stop) doc).state = true := by
    intro hstrict
    rw [start_eq]
    show loose (carried (Cursor.start doc (doc.spanOf start stop)).state) = true
    rw [Cursor.state_start hdoc hstart hlt hstop]
    unfold carried
    split
    . rfl
    . exact hstyle hstrict
  have halike := alike_start hbegins hpens rfl hloose
  exact ⟨⟨_, rfl, Colouring.LawfulPass.stop_ofRange doc start stop, halike⟩, fun _ _ => trivial⟩

theorem good_start (keywords : Keywords) (hdoc : doc.WellFormed) (hpos : 0 < doc.size) :
    (colouring keywords).Good ((colouring keywords).start doc 0 doc.size) :=
  good_pass keywords hdoc startsLine_zero hpos (.inr rfl) (fun _ => rfl)

theorem drives_pass {session : Session} (h : session.lexer = lexer) : (pass strict loose' session.keywords).Drives session := by
  intro doc span start stop hdoc hstart hlt hstop hspan
  rw [h]
  dsimp only [lexer, pass]
  rw [← hdoc.wholeLines_spanOf hstart hlt hstop] at hspan
  unfold colour R.start
  rw [Cursor.start_congr hspan]

theorem drives_colouring {session : Session} (h : session.lexer = lexer) : (colouring session.keywords).Drives session :=
  drives_pass h

end Highlight.R
