import Highlight.Proofs.Locality
import Highlight.Proofs.Tcl.Resume

/-!
The walk over a text of Tcl: steps that go forward as long as there is more, and at most two steps at the
end, which change nothing that was coloured.
-/

namespace Highlight.Tcl

open LineIndex

variable {strict bounded : Prop} {loose' : Style → Bool} {v : View} {rel : Style → Pen → Pen → Prop} {s t : Scan} {w w' : Walk} {doc doc' : Document}

/--
The pass of Tcl, without the steps at the end. If it is not `strict`, it can begin in any token, and if it is not
`bounded`, it can come to more open braces than a level word holds.
-/
def pass (strict bounded : Prop) (loose : Style → Bool) (keywords : Keywords) (options : Options) : Colouring Scan where
  colour doc start stop := colour keywords (doc.spanOf start stop) doc
  start doc start stop := .ofSpan (doc.spanOf start stop) doc
  cursor := Scan.cursor
  step := Scan.advance (.read keywords options)
  loose := loose
  goesOn doc pos doc' pos' := doc'.styleBefore pos' = doc.styleBefore pos ∧ Above doc (doc.lineOf pos) doc' (doc'.lineOf pos')
  alike v rel s s' := Scan.Alike strict bounded v rel s s' ∧ v.options = options
  Storable s := bounded → DepthFits s.lineDepth
  rank s := s.cursor.remaining

/--
The colouring of Tcl, which can be interrupted.
-/
def colouring (keywords : Keywords) (options : Options) : Colouring Scan :=
  pass True True loose keywords options

theorem Above.of_agree {line : Nat} (hstates : ∀ l : Nat, l < line → doc'.lineStates[l]? = doc.lineStates[l]?)
    (hlevels : ∀ l : Nat, l < line → doc'.levels[l]? = doc.levels[l]?) : Above doc line doc' line := by
  constructor
  . unfold Document.lineStateAbove?
    split
    . rw [Document.lineState, Document.lineState, hstates (line - 1) (by omega)]
    . rfl
  . intro hline
    rw [Document.level, Document.level, hlevels (line - 1) (by omega)]

theorem lawfulSteps_pass (hloose : ∀ style, loose' style = true → loose style = true) (himp : bounded → strict)
    (keywords : Keywords) (options : Options) : (pass strict bounded loose' keywords options).LawfulSteps where
  cursor_alike := fun h => h.1.cursor
  alike_second := fun h => ⟨h.1.second, h.2⟩
  storable_alike := by
    intro v rel s s' h hfits
    show bounded → DepthFits s'.lineDepth
    rw [h.1.rest]
    exact hfits
  alike_step := fun hrel hfits hin h => ⟨(h.1.advance (hrel.mono hloose) himp hfits hin _).1, h.2⟩
  rank_step := by
    intro v s hshift hfits hin h
    have hshift : (v.behind s.cursor.doc s.cursor.pos).shift = 0 := hshift
    have hstep := (h.1.behind hin rfl).advance (View.closed_equal hshift) himp hfits hin (.read keywords options)
    have hstop := hstep.1.cursor.stop.trans h.1.cursor.stop.symm
    have hlt := hstep.2
    have hmore := h.1.cursor.more hin
    simp only [Cursor.more, decide_eq_true_eq] at hmore
    exact Cursor.remaining_lt hmore hstop hlt

/--
A step in the part goes on, and to the same character again only in the part.
-/
theorem Scan.Alike.flow_step (hrel : v.Closed Tcl.loose rel) (h : Scan.Alike strict bounded v rel s s) (hin : s.cursor.pos < v.reach)
    (settings : Settings) : (s.step settings false).2 ≠ .stop
      ∧ ((s.step settings false).2 = .again → (s.step settings false).1.cursor.more = true) := by
  have hinside : Scan.Inside strict v rel s s := ⟨h.cursor, hin, h.rest, h.parens, h.flat, h.block⟩
  cases hend : (s.leave settings.keywords).cursor.atLineEnd with
  | false =>
    have hnext := hinside.step_of_inner hrel settings hend
    exact ⟨hnext.goesOn, fun _ => hnext.inside.cursor.more hnext.inside.lt_reach⟩
  | true =>
    rw [Scan.step_of_atLineEnd settings hend]
    exact ⟨nofun, nofun⟩

namespace Walk

theorem next_ofScan (hrel : v.Closed Tcl.loose rel) (h : Scan.Alike strict bounded v rel s s) (hin : s.cursor.pos < v.reach)
    (settings : Settings) : (ofScan s).next settings = ofScan (s.advance settings) := by
  have hmore := h.cursor.more hin
  unfold next Scan.advance
  obtain ⟨hstop, hagain⟩ := h.flow_step hrel hin settings
  simp only [ofScan, hmore, Bool.not_true]
  generalize s.step settings false = r at *
  obtain ⟨t, flow⟩ := r
  cases flow with
  | forward => rfl
  | again =>
    have hmore' : t.cursor.more = true := hagain rfl
    simp only [Scan.after, hmore', Bool.not_true]
  | stop => exact absurd rfl hstop

end Walk

/--
A scan at the end of a pass, which has `doc` left to show for it.
-/
structure Scan.Spent (doc : Document) (s : Scan) : Prop where
  more : s.cursor.more = false
  complete : s.cursor.complete = doc
  state : s.inBraces = false → s.cursor.state = Style.default

namespace Scan.Spent

theorem leave (h : s.Spent doc) (keywords : Keywords) : (s.leave keywords).Spent doc := by
  unfold Scan.leave
  dsimp only
  split
  . unfold leaveBraces
    dsimp only
    split
    . have hend : (s.cursor.setState Style.operator).more = false := h.more
      refine ⟨(Cursor.forward_of_end hend).2.2.2.1, ?_, fun _ => rfl⟩
      show ((s.cursor.setState Style.operator).forward.setState Style.default).complete = doc
      rw [Cursor.complete_setState, Cursor.complete_forward hend, Cursor.complete_setState, h.complete]
    . next hbraces _ =>
      refine ⟨h.more, (Cursor.complete_setState _ _).trans h.complete, ?_⟩
      intro hfalse
      have hfalse : s.inBraces = false := hfalse
      rw [hfalse] at hbraces
      cases hbraces
  . next hbraces =>
    have hstate := h.state (Bool.eq_false_iff.mpr hbraces)
    rw [if_pos (by rw [hstate]; rfl)]
    exact ⟨h.more, h.complete, h.state⟩

theorem forward (h : s.Spent doc) : (s.withCursor s.cursor.forward).Spent doc where
  more := (Cursor.forward_of_end h.more).2.2.2.1
  complete := (Cursor.complete_forward h.more).trans h.complete
  state := fun hbraces => (Cursor.forward_of_end h.more).2.2.1.trans (h.state hbraces)

end Scan.Spent

/--
The steps at the end of a walk change nothing that was coloured.
-/
theorem Walk.spent_next (h : w.scan.Spent doc) (hend : w.atEnd = true) (settings : Settings) :
    (w.next settings).scan.Spent doc ∧ (w.next settings).atEnd = true := by
  have hleave := h.leave settings.keywords
  unfold next
  rw [hend]
  unfold Scan.step
  dsimp only
  generalize w.scan.leave settings.keywords = t at *
  by_cases hinner : (w.scan.inBraces && !t.cursor.atLineEnd) = true
  . rw [if_pos hinner]
    refine ⟨hleave.forward, ?_⟩
    show (!t.cursor.forward.more) = true
    rw [(Cursor.forward_of_end hleave.more).2.2.2.1]
    rfl
  . rw [if_neg hinner, if_pos rfl]
    exact ⟨hleave, rfl⟩

theorem spent_of_end (h : Scan.Alike strict bounded v rel s s) (hlt : v.start < s.cursor.pos) (hpos : s.cursor.pos = v.reach)
    (hmore : s.cursor.more = false) : s.Spent s.cursor.complete where
  more := hmore
  complete := rfl
  state := fun _ => (h.kept.anew (h.cursor.atLineStart_of_reach hpos) (.inr hlt)).state

section Pass

variable (hloose : ∀ style, loose' style = true → loose style = true) (himp : bounded → strict)
include hloose himp

/--
A pass that had more to do ends behind its start, with nothing open.
-/
theorem spent_of_ends {keywords : Keywords} {options : Options} (hgood : (pass strict bounded loose' keywords options).Good s)
    (hmore : s.cursor.more = true) (hends : (pass strict bounded loose' keywords options).Ends s t) : t.Spent t.cursor.complete := by
  have hsteps := lawfulSteps_pass hloose himp keywords options
  have hmoved := hends.1.invariant (fun u => (pass strict bounded loose' keywords options).Good u ∧ (u = s ∨ ∃ v : View,
      v.stop' = v.reach + v.shift ∧ Scan.Alike strict bounded v Pen.Equal u u ∧ v.start < u.cursor.pos)) (by
    intro u hmore hu
    obtain ⟨v, hshift, hstop, halike, _⟩ := hu.1.alike
    have hin := (halike.cursor.more'_iff (by omega)).mp hmore
    have hstep := halike.advance (View.closed_equal hshift) himp hu.1.storable_self hin (.read keywords options)
    exact ⟨hsteps.good_step hmore hu.1, .inr ⟨v, by omega, hstep⟩⟩) ⟨hgood, .inl rfl⟩
  rcases hmoved.2 with rfl | ⟨v, hstop, halike, hlt⟩
  . exact absurd (hmore.symm.trans hends.2) (by decide)
  . exact spent_of_end halike hlt (halike.cursor.pos_eq_reach hstop hends.2) hends.2

/--
The pass takes the steps of the colouring.
-/
theorem colour_eq_complete {keywords : Keywords} {options : Options} {start stop : Nat} (hoptions : doc.options = options)
    (hmore : (Scan.ofSpan (doc.spanOf start stop) doc).cursor.more = true)
    (hgood : (pass strict bounded loose' keywords options).Good (.ofSpan (doc.spanOf start stop) doc))
    (hends : (pass strict bounded loose' keywords options).Ends (.ofSpan (doc.spanOf start stop) doc) t) :
    colour keywords (doc.spanOf start stop) doc = t.cursor.complete := by
  have hsteps := lawfulSteps_pass hloose himp keywords options
  have hspent := spent_of_ends hloose himp hgood hmore hends
  unfold colour Walk.run Walk.bound
  dsimp only
  rw [hoptions]
  generalize Scan.ofSpan (doc.spanOf start stop) doc = s at *
  have hmap : ∃ rest, repeatWhile (!·.stopped) (Walk.next (.read keywords options)) (s.cursor.remaining + 4) (Walk.ofScan s)
      = repeatWhile (!·.stopped) (Walk.next (.read keywords options)) rest
        (Walk.ofScan (repeatWhile (pass strict bounded loose' keywords options).more
          (pass strict bounded loose' keywords options).step s.cursor.remaining s)) := by
    refine repeatWhile_map Walk.ofScan (pass strict bounded loose' keywords options).Good (fun _ => hsteps.good_step)
      (fun _ _ _ => rfl) ?_ _ _ hgood
    intro s hs hmore
    obtain ⟨v, hshift, hstop, halike, _⟩ := hs.alike
    exact Walk.next_ofScan (View.closed_equal hshift) halike ((halike.cursor.more'_iff (by omega)).mp hmore) _
  obtain ⟨rest, hrun⟩ := hmap
  have hloop := hsteps.ends_repeatWhile hgood (fun _ => Nat.le_refl s.cursor.remaining)
  have heq := hends.1.end_unique hends.2 hloop.1 hloop.2
  have hend : (Walk.ofScan t).atEnd = true := by
    show (!t.cursor.more) = true
    rw [show t.cursor.more = false from hends.2]
    rfl
  have hspent := repeatWhile_induction (!·.stopped) (Walk.next (.read keywords options))
    (fun w => w.scan.Spent t.cursor.complete ∧ w.atEnd = true) (fun w _ h => Walk.spent_next h.1 h.2 _) rest
    (Walk.ofScan t) ⟨hspent, hend⟩
  show (repeatWhile _ _ (s.cursor.remaining + 4) (Walk.ofScan s)).scan.cursor.complete = _
  rw [hrun, ← heq]
  exact hspent.1.complete

theorem lawfulPass (keywords : Keywords) (options : Options) : (pass strict bounded loose' keywords options).LawfulPass where
  toLawfulSteps := lawfulSteps_pass hloose himp keywords options
  colour_eq := by
    intro doc start stop t hwell hstart hlt hstop hgood hends
    obtain ⟨v, _, _, h, hoptions⟩ := hgood.alike
    obtain ⟨pen, hpen, hcursor⟩ := exists_cursor_ofSpan (doc.spanOf start stop) doc
    have hdoc := h.cursor.shows.options
    rw [show ((pass strict bounded loose' keywords options).start doc start stop).cursor = _ from hcursor] at hdoc
    have hmore : (Scan.ofSpan (doc.spanOf start stop) doc).cursor.more = true := by
      rw [hcursor]
      exact Cursor.more_start hwell hstart hlt hstop
    dsimp only [pass]
    exact colour_eq_complete hloose himp (hpen.symm.trans (hdoc.trans hoptions)) hmore hgood hends
  goesOn_of_agree := by
    intro doc doc' start hdoc hsame hstyles hstates hlevels
    refine ⟨Document.styleBefore_congr hstyles, ?_⟩
    rw [hsame.lineOf]
    exact .of_agree hstates hlevels
  alike_start := by
    intro v rel doc doc' stop stop' hrel hbegins hgoes hgood hpens
    obtain ⟨v₁, _, _, h, hoptions⟩ := hgood.alike
    have hstart := (atLineStart_ofSpan (doc.spanOf v.start stop) doc).trans
      (Cursor.atLineStart_start hbegins.shows.wellFormed hbegins.startsLine hbegins.lt_stop hbegins.boundary)
    have hdefault : strict → doc.styleBefore v.start = Style.default := by
      intro hstrict
      rw [← Cursor.state_start hbegins.shows.wellFormed hbegins.startsLine hbegins.lt_stop hbegins.boundary, ← state_ofSpan]
      exact (h.kept.anew hstart (.inl hstrict)).state
    have halike : Scan.Alike strict bounded v rel _ _ :=
      alike_ofSpan (hrel.mono hloose) hbegins hpens hgoes.1 hdefault hgoes.2 h.block
    exact ⟨halike, halike.cursor.shows.options.symm.trans (h.cursor.shows.options.trans hoptions)⟩

end Pass

/--
Tcl can be interrupted at every line start at which the number of open braces fits into a level word.
-/
theorem lawful_colouring (keywords : Keywords) (options : Options) : (colouring keywords options).Lawful where
  toLawfulPass := lawfulPass (fun _ => id) id keywords options
  resume := by
    intro v base s t stop hfits hshift hwhole hstop hlimit h hmore hlt hbound hat
    have hpos := h.1.cursor.pos_eq_reach (by omega) hmore
    rw [View.reach_of_open hwhole] at hpos
    have halike := alike_resume h.1 (hfits trivial) hshift hwhole hlimit hpos hlt hbound hat
    exact ⟨_, halike, halike.cursor.shows.options.symm.trans (h.1.cursor.shows.options.trans h.2)⟩

/--
What Tcl leaves in front of a line depends on the text in front of it only, however many braces are open.
-/
theorem forward_pass (keywords : Keywords) (options : Options) :
    (pass True bounded loose keywords options).Forward where
  toLawfulPass := lawfulPass (fun _ => id) (fun _ => trivial) keywords options
  loose_of_reach := fun h hpos => beq_iff_eq.mpr (h.1.kept.anew (h.1.cursor.atLineStart_of_reach hpos) (.inl trivial)).state
  alike_behind := fun h hin _ hrel => ⟨h.1.behind hin hrel, h.2⟩

/--
In the walk over a range, the number of open braces fits into a level word at every line end.
-/
def DepthsFit (keywords : Keywords) (doc : Document) (start stop : Nat) : Prop :=
  ∀ w, Iterates (!·.stopped) (Walk.next (.read keywords doc.options)) (.ofScan (.ofSpan (doc.spanOf start stop) doc)) w →
    DepthFits w.scan.lineDepth

/--
The walk comes by wherever the steps of the colouring do.
-/
theorem iterates_ofScan {keywords : Keywords} {options : Options} (hshift : v.shift = 0) (hstop : v.stop' = v.reach)
    (halike : Scan.Alike True True v Pen.Equal s s)
    (hfits : ∀ w, Iterates (!·.stopped) (Walk.next (.read keywords options)) (.ofScan s) w → DepthFits w.scan.lineDepth)
    (hrun : Iterates (colouring keywords options).more (colouring keywords options).step s t) :
    Iterates (!·.stopped) (Walk.next (.read keywords options)) (.ofScan s) (.ofScan t) := by
  have hstep : ∀ u : Scan, (colouring keywords options).more u = true →
      Scan.Alike True True v Pen.Equal u u ∧ Iterates (!·.stopped) (Walk.next (.read keywords options)) (.ofScan s) (.ofScan u) →
      Scan.Alike True True v Pen.Equal (u.advance (.read keywords options)) (u.advance (.read keywords options))
        ∧ Iterates (!·.stopped) (Walk.next (.read keywords options)) (.ofScan s) (.ofScan (u.advance (.read keywords options))) := by
    intro u hmore ⟨hu, hwalk⟩
    have hin := (hu.cursor.more'_iff (by omega)).mp hmore
    refine ⟨(hu.advance (View.closed_equal hshift) id (fun _ => hfits _ hwalk) hin _).1, ?_⟩
    rw [← Walk.next_ofScan (View.closed_equal hshift) hu hin]
    exact hwalk.tail rfl
  exact (hrun.invariant _ hstep ⟨halike, .refl _⟩).2

theorem alike_start (hdoc : doc.WellFormed) {start stop : Nat} (hstart : startsLine doc.text start = true) (hlt : start < stop)
    (hstop : IsBoundary doc.text stop) (hdefault : strict → doc.styleBefore start = Style.default) (hzero : strict → start = 0) :
    Scan.Alike strict bounded (.ofRange doc start stop stop) Pen.Equal (.ofSpan (doc.spanOf start stop) doc)
      (.ofSpan (doc.spanOf start stop) doc) := by
  have hbegins := View.Begins.ofRange hdoc (.refl doc) hstart hlt hstop (Nat.le_refl stop) hstop
  refine alike_ofSpan (View.closed_equal rfl) hbegins (fun _ => rfl) rfl hdefault ⟨rfl, fun _ => rfl⟩ ?_
  intro hstrict
  show (Scan.ofSpan (doc.spanOf start stop) doc).inCommentBlock = true → _
  have hline : (Cursor.start doc (doc.spanOf start stop)).line = 0 := by
    rw [Cursor.line_start hdoc hstart hlt hstop, hdoc.lineOf_eq, hzero hstrict, breaksBefore_zero]
  rw [ofSpan_of_zero hline]
  exact nofun

theorem good_start (keywords : Keywords) (hdoc : doc.WellFormed) (hpos : 0 < doc.size)
    (hfits : DepthsFit keywords doc 0 doc.size) :
    (colouring keywords doc.options).Good ((colouring keywords doc.options).start doc 0 doc.size) := by
  have halike : Scan.Alike True True (.ofRange doc 0 doc.size doc.size) Pen.Equal _ _ :=
    alike_start hdoc startsLine_zero hpos (.inr rfl) (fun _ => rfl) (fun _ => rfl)
  exact
    { alike := ⟨_, rfl, rfl, halike, rfl⟩
      storable := fun t hrun _ => hfits _ (iterates_ofScan rfl rfl halike hfits hrun) }

/--
A pass that need not keep its numbers begins well.
-/
theorem good_pass (keywords : Keywords) (hdoc : doc.WellFormed) {start stop : Nat} (hstart : startsLine doc.text start = true)
    (hlt : start < stop) (hstop : IsBoundary doc.text stop) (hdefault : strict → doc.styleBefore start = Style.default)
    (hzero : strict → start = 0) :
    (pass strict False loose' keywords doc.options).Good ((pass strict False loose' keywords doc.options).start doc start stop) where
  alike := ⟨_, rfl, Colouring.LawfulPass.stop_ofRange doc start stop, alike_start hdoc hstart hlt hstop hdefault hzero, rfl⟩
  storable := fun _ _ => False.elim

theorem drives_pass {session : Session} (h : session.lexer = lexer) (options : Options) :
    (pass strict bounded loose' session.keywords options).Drives session := by
  intro doc span start stop hdoc hstart hlt hstop hspan
  rw [h]
  dsimp only [lexer, pass]
  rw [← hdoc.wholeLines_spanOf hstart hlt hstop] at hspan
  unfold colour Scan.ofSpan
  rw [Cursor.start_congr hspan]

theorem drives_colouring {session : Session} (h : session.lexer = lexer) (options : Options) :
    (colouring session.keywords options).Drives session :=
  drives_pass h options

/--
Two scans at a line start that have the same to go on with: what is open, whether a command is expected and
whether a substitution with braces is, the number of open braces and whether one of them is a block of
comment lines. All else starts anew with the line.
-/
structure Scan.GoesOn (s s' : Scan) : Prop where
  opened : s'.opened = s.opened
  commandExpected : s'.commandExpected = s.commandExpected
  inBraces : s'.inBraces = s.inBraces
  lineDepth : s'.lineDepth = s.lineDepth
  inCommentBlock : s'.inCommentBlock = s.inCommentBlock
  anew : s.Anew
  anew' : s'.Anew

theorem Scan.Alike.goesOn (h : Scan.Alike True bounded v rel s t) (hstart : s.cursor.atLineStart = true)
    (hstart' : t.cursor.atLineStart = true) : s.GoesOn t where
  opened := by rw [h.rest]
  commandExpected := by rw [h.rest]
  inBraces := by rw [h.rest]
  lineDepth := by rw [h.rest]
  inCommentBlock := by rw [h.rest]
  anew := h.kept.anew hstart (.inl trivial)
  anew' := h.kept'.anew hstart' (.inl trivial)

/--
What a pass that begins at a line start reads back is what the walk over all of the text has there.
-/
theorem exists_goesOn {session : Session} (hsession : session.lexer = lexer) (hdoc : doc.WellFormed)
    (hfits : DepthsFit session.keywords doc 0 doc.size) {pos : Nat} (hpos : 0 < pos) (hlt : pos < doc.size)
    (hstart : startsLine doc.text pos = true) :
    ∃ w, Iterates (!·.stopped) (Walk.next (.read session.keywords doc.options)) (.ofScan (.ofSpan (doc.spanOf 0 doc.size) doc)) w
      ∧ w.scan.cursor.pos = pos
      ∧ w.scan.GoesOn (.ofSpan ((session.colour doc 0 pos).spanOf pos doc.size) (session.colour doc 0 pos)) := by
  have hlawful := lawful_colouring session.keywords doc.options
  have hdrives : (colouring session.keywords doc.options).Drives session := drives_colouring hsession doc.options
  have hgood := good_start session.keywords hdoc (Nat.lt_of_le_of_lt (Nat.zero_le _) hlt) hfits
  obtain ⟨v, hshift, hstop, halike, _⟩ := hgood.alike
  obtain ⟨s, opened, hrun, hat, _, h⟩ := hlawful.exists_resume hdoc startsLine_zero hpos hstart hlt (.inr rfl) hgood
  have hgood₁ := hlawful.good_part hdoc startsLine_zero hpos (.inl hstart) (Nat.le_of_lt hlt) (.inr rfl) hgood
  have hsame := hlawful.sameSource_colour hdoc startsLine_zero hpos (.inl hstart) hgood₁
  rw [← hdrives.colour_eq hdoc hpos (.inl hstart)] at h hsame
  have h : Scan.Alike True True _ _ s (.ofSpan ((session.colour doc 0 pos).spanOf pos doc.size) (session.colour doc 0 pos)) := h.1
  have hstart' : startsLine (session.colour doc 0 pos).text pos = true := by rwa [hsame.text]
  have hbound' : IsBoundary (session.colour doc 0 pos).text doc.size := .inr (by rw [hsame.text]; rfl)
  have hbegin := (atLineStart_ofSpan _ _).trans (Cursor.atLineStart_start (hsame.wellFormed hdoc) hstart' hlt hbound')
  have hin : s.cursor.pos < (View.ofRange (session.colour doc 0 pos) pos doc.size doc.size).reach := by
    have hreach := (View.ofRange (session.colour doc 0 pos) pos doc.size doc.size).limit_le_reach
    have hat : s.cursor.pos = pos := hat
    have hlimit : (View.ofRange (session.colour doc 0 pos) pos doc.size doc.size).limit = doc.size := rfl
    omega
  exact ⟨.ofScan s, iterates_ofScan hshift hstop halike hfits hrun, hat,
    h.goesOn ((h.cursor.atLineStart hin).symm.trans hbegin) hbegin⟩

/--
Colouring a text of Tcl in parts, whichever its cuts are, leaves what colouring it at once does: its
styles, its line states and its levels, as long as the level words hold the numbers of open braces.
What goes over a line end is what a part that begins there reads back.
-/
theorem colourInParts_eq_colour_of_depthsFit (session : Session) (hsession : session.lexer = lexer) (text : Array UInt8)
    (encoding : Encoding) (options : Options)
    (hfits : DepthsFit session.keywords (.fresh text encoding options) 0 text.size) (cuts : List Nat)
    (hcuts : cuts.Pairwise (· ≤ ·)) :
    session.colourInParts (.fresh text encoding options) cuts
        = session.colour (.fresh text encoding options) 0 text.size
      ∧ ∀ pos, 0 < pos → pos < text.size → startsLine text pos = true →
        let doc := Document.fresh text encoding options
        let part := session.colour doc 0 pos
        ∃ w, Iterates (!·.stopped) (Walk.next (.read session.keywords doc.options)) (.ofScan (.ofSpan (doc.spanOf 0 text.size) doc)) w
          ∧ w.scan.cursor.pos = pos ∧ w.scan.GoesOn (.ofSpan (part.spanOf pos text.size) part) := by
  have hdoc := Document.wellFormed_fresh text encoding options
  refine ⟨?_, fun pos hpos hlt hstart => exists_goesOn hsession hdoc hfits hpos hlt hstart⟩
  have hlawful := lawful_colouring session.keywords (Document.fresh text encoding options).options
  exact Colouring.colourInParts_eq hlawful (drives_colouring hsession _) hdoc
    (fun hpos => good_start session.keywords hdoc hpos hfits) hcuts

/--
A comment line, a brace that stays open, and a word in quotes and a substitution that go over a line end,
with cuts in two of the lines.
-/
theorem colourInParts_eq_colour_comment_brace :
    let session := Session.ofLexer lexer
    let text := "# a\nset b \x7b\n\"c\nd\" $\x7be\n\x7d \x7d\n".toUTF8.data
    let doc := Document.fresh text .utf8 (Options.parse "fold.comment=1")
    DepthsFit session.keywords doc 0 text.size ∧ session.colourInParts doc [2, 10] = session.colour doc 0 text.size := by
  intro session text doc
  have hcheck : holdsAlong (fun w => decide (DepthFits w.scan.lineDepth)) (!·.stopped)
      (Walk.next (.read session.keywords doc.options)) 60 (.ofScan (.ofSpan (doc.spanOf 0 text.size) doc)) = true := by
    decide +kernel
  have hfits : DepthsFit session.keywords doc 0 text.size := by
    intro w hrun
    have := hrun.of_holdsAlong hcheck
    exact of_decide_eq_true this
  exact ⟨hfits, (colourInParts_eq_colour_of_depthsFit session rfl text .utf8 _ hfits [2, 10] (by decide)).1⟩

end Highlight.Tcl
