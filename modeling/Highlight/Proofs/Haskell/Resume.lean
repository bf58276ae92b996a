import Highlight.Haskell
import Highlight.Proofs.Cursor.Resume
import Highlight.Proofs.Haskell.Alike
import Highlight.Proofs.Locality
import Highlight.Proofs.Session.Parts

/-!
Haskell can be interrupted at every line start. A step can come over a line end anywhere in a token, and
the line that is left behind gets its state only then, before the next step.
-/

namespace Highlight.Haskell

open LineIndex

variable {bounded : Prop} {v : View} {rel : Style → Pen → Pen → Prop} {c c' : Cursor} {s s' t : Scan} {doc doc' : Document}

namespace Memory

theorem number_lt (mode : Mode) : mode.number < 16 := by
  cases mode <;> decide

theorem unpack_pack {memory : Memory} (h : memory.extra < 1 <<< 27) : unpack memory.pack = memory := by
  have hmode := number_lt memory.mode
  have hsmall : memory.extra * 16 + memory.mode.number < 2 ^ 31 := by
    rw [Nat.one_shiftLeft] at h
    omega
  rw [unpack, pack, LineState.saturate_of_lt h, Int32.toInt_ofNat_of_lt hsmall, Int.toNat_natCast,
    show (((memory.extra * 16 + memory.mode.number : Nat) : Int) % 16).toNat = memory.mode.number by omega,
    show (memory.extra * 16 + memory.mode.number) / 16 = memory.extra by omega, Mode.ofNumber_number]

/--
A line state tells no larger numbers than it can keep.
-/
theorem extra_unpack_lt (state : LineState) : (unpack state).extra < 1 <<< 27 := by
  have hlt := state.toInt_lt
  show state.toInt.toNat / 16 < 1 <<< 27
  rw [Nat.one_shiftLeft]
  omega

theorem extra_before_lt (doc : Document) (line : Nat) : (before doc line).extra < 1 <<< 27 := by
  unfold before
  cases doc.lineStateAbove? line with
  | none => decide
  | some state => exact extra_unpack_lt state

end Memory

section StoreLines

/--
Lines get their states in a document that stays the same otherwise.
-/
theorem exists_pen_foldl (state : LineState) (count first : Nat) (c : Cursor) :
    ∃ pen : Pen, (List.range' first count).foldl (fun c line => c.setLineState line state) c = { c with pen }
      ∧ pen.segment = c.pen.segment ∧ c.doc.SameSource pen.doc
      ∧ ∀ line, line < first → pen.doc.lineState line = c.doc.lineState line := by
  induction count generalizing first c with
  | zero => exact ⟨c.pen, rfl, rfl, .refl _, fun _ _ => rfl⟩
  | succ count ih =>
    obtain ⟨pen, heq, hsegment, hsame, hbefore⟩ := ih (first + 1) (c.setLineState first state)
    refine ⟨pen, heq, hsegment, (Document.sameSource_setLineState _ _ _).trans hsame, ?_⟩
    intro line hline
    rw [hbefore line (by omega), Document.lineState, Document.lineState]
    show ((c.doc.setLineState first state).lineStates[line]?).getD _ = _
    rw [Document.getElem?_setLineState, if_neg (by omega)]

theorem lineState_foldl (state : LineState) {count first : Nat} {c : Cursor} (hdoc : c.doc.WellFormed)
    (hcount : first + count ≤ c.doc.lineCount) {line : Nat} (hfirst : first ≤ line) (hline : line < first + count) :
    ((List.range' first count).foldl (fun c line => c.setLineState line state) c).doc.lineState line = state := by
  induction count generalizing first c with
  | zero => omega
  | succ count ih =>
    have hsame := Document.sameSource_setLineState c.doc first state
    rw [List.range'_succ, List.foldl_cons]
    by_cases heq : first = line
    . subst heq
      obtain ⟨pen, hpen, _, _, hbefore⟩ := exists_pen_foldl state count (first + 1) (c.setLineState first state)
      rw [hpen]
      show pen.doc.lineState first = state
      rw [hbefore first (Nat.lt_succ_self first)]
      exact Document.lineState_setLineState hdoc (by omega) state
    . refine ih (hsame.wellFormed hdoc) ?_ (by omega) (by omega)
      show first + 1 + count ≤ (c.doc.setLineState first state).lineCount
      rw [hsame.lineCount]
      omega

theorem alike_foldl (hrel : v.Closed loose rel) (h : c.Alike v rel c') (state : LineState) {count first : Nat}
    (hfirst : v.first ≤ first) (hlast : first + count ≤ v.last) :
    Cursor.Alike v rel ((List.range' first count).foldl (fun c line => c.setLineState line state) c)
      ((List.range' (first + v.shift) count).foldl (fun c line => c.setLineState line state) c') := by
  induction count generalizing first c c' with
  | zero => exact h
  | succ count ih =>
    rw [List.range'_succ, List.range'_succ, List.foldl_cons, List.foldl_cons,
      show first + v.shift + 1 = first + 1 + v.shift by omega]
    exact ih (h.setLineState hrel hfirst (by omega) state) (by omega) (by omega)

end StoreLines

namespace Scan

/--
What a line end leaves behind for a pass that begins at the next line.
-/
structure Stored (s : Scan) : Prop where
  loose : loose s.cursor.state = true
  line_pos : 0 < s.cursor.line
  segment_lt : s.cursor.pen.segment < s.cursor.pos
  lineState : s.cursor.doc.lineState (s.cursor.line - 1) = s.memory.pack

/--
Two scans at the same place of the part that a view shows which have stored the states of the lines in
front of them.
-/
structure Alike (v : View) (rel : Style → Pen → Pen → Prop) (s s' : Scan) : Prop where
  near : Near v rel s s'
  pending : s.pending = s.cursor.line
  stored : s.cursor.pos = v.reach → s.Stored ∧ s'.Stored

/--
A step, with the states of the lines that it has left.
-/
def advance (settings : Settings) (s : Scan) : Scan :=
  ((s.leave settings).enter).storeLines

theorem exists_pen_storeLines (s : Scan) : ∃ pen : Pen,
    s.storeLines = { s with cursor := { s.cursor with pen }, pending := max s.pending s.cursor.line }
      ∧ pen.segment = s.cursor.pen.segment ∧ s.cursor.doc.SameSource pen.doc := by
  obtain ⟨pen, hpen, hsegment, hsame, _⟩ :=
    exists_pen_foldl s.memory.pack (s.cursor.line - s.pending) s.pending s.cursor
  refine ⟨pen, ?_, hsegment, hsame⟩
  unfold storeLines
  dsimp only
  rw [hpen]

theorem storeLines_of_pending (h : s.pending = s.cursor.line) : s.storeLines = s := by
  unfold storeLines
  dsimp only
  rw [h, Nat.sub_self, Nat.max_self, ← h]
  rfl

/--
A scan that has come over a line end stores what is known there.
-/
theorem Landed.stored (h : s.Landed) (hsettled : s.cursor.Settled) : s.storeLines.Stored := by
  obtain ⟨pen, heq, hsegment, _⟩ := s.exists_pen_storeLines
  have hpending := h.pending_lt
  have hcount : s.cursor.line ≤ s.cursor.doc.lineCount := by
    have := hsettled.wellFormed.lineOf_lt s.cursor.pos
    rw [hsettled.line]
    split <;> omega
  have hstate : s.storeLines.cursor.doc.lineState (s.cursor.line - 1) = s.memory.pack :=
    lineState_foldl s.memory.pack hsettled.wellFormed (by omega) (by omega) (by omega)
  rw [heq] at hstate ⊢
  exact
    { loose := h.loose
      line_pos := Nat.lt_of_le_of_lt (Nat.zero_le _) hpending
      segment_lt := hsegment ▸ h.segment_lt
      lineState := hstate }

theorem Went.storeLines (hrel : v.Closed Haskell.loose rel) (h : Went v rel s s') : Scan.Alike v rel s.storeLines s'.storeLines := by
  have hnear := h.near
  have hpending := hnear.pending
  have hle := hnear.pending_le
  have hline := hnear.cursor.line
  have hlast := hnear.cursor.line_le_last
  have hcursor : s.storeLines.cursor.Alike v rel s'.storeLines.cursor := by
    unfold Scan.storeLines
    dsimp only
    rw [hnear.memory, hpending, hline, show s.cursor.line + v.shift - (s.pending + v.shift) = s.cursor.line - s.pending by omega]
    exact alike_foldl hrel hnear.cursor s.memory.pack hnear.first_le (by omega)
  have hstored : s.cursor.pos = v.reach → s.storeLines.Stored ∧ s'.storeLines.Stored := fun hpos =>
    ⟨(h.landed hpos).1.stored hnear.cursor.settled, (h.landed hpos).2.stored hnear.cursor.settled'⟩
  obtain ⟨pen, heq, _, _⟩ := s.exists_pen_storeLines
  obtain ⟨pen', heq', _, _⟩ := s'.exists_pen_storeLines
  rw [heq, heq'] at hcursor hstored ⊢
  exact
    { near :=
        { cursor := hcursor
          memory := hnear.memory
          pending := by
            show max s'.pending s'.cursor.line = max s.pending s.cursor.line + v.shift
            omega
          first_le := Nat.le_trans hnear.first_le (Nat.le_max_left _ _)
          pending_le := Nat.max_le.mpr ⟨hle, Nat.le_refl _⟩
          token := hnear.token
          sign := hnear.sign
          small := hnear.small }
      pending := Nat.max_eq_right hle
      stored := hstored }

namespace Alike

/--
One step, which has moved on or has less left to do in front of its character.
-/
theorem advance (hrel : v.Closed Haskell.loose rel) (h : Scan.Alike v rel s s') (hin : s.cursor.pos < v.reach)
    (settings : Settings) :
    Scan.Alike v rel (s.advance settings) (s'.advance settings)
      ∧ (v.start < (s.advance settings).cursor.pos ∨ (s.advance settings).weight < s.weight) := by
  obtain ⟨hwent, hprogress⟩ := h.near.step hrel hin settings
  refine ⟨hwent.storeLines hrel, ?_⟩
  unfold Scan.advance
  obtain ⟨pen, heq, _, _⟩ := ((s.leave settings).enter).exists_pen_storeLines
  rw [heq]
  exact hprogress

theorem second (h : Scan.Alike v rel s s') : Scan.Alike v.second Pen.Equal s' s' := by
  have hpending := h.pending
  have hline := h.near.cursor.line
  have hmemory := h.near.memory
  have hshift := h.near.pending
  have hpos := h.near.cursor.pos
  refine ⟨⟨h.near.cursor.second, rfl, rfl, ?_, ?_, ?_, ?_, ?_⟩, ?_, ?_⟩
  . have := h.near.first_le
    show v.first + v.shift ≤ s'.pending
    omega
  . omega
  . rw [h.near.cursor.state]
    exact h.near.token
  . rw [h.near.cursor.state]
    intro hoperator
    by_cases hin : s.cursor.pos < v.reach
    . rw [h.near.cursor.cur hin]
      exact h.near.sign hoperator
    . have hloose := (h.stored (Nat.le_antisymm h.near.cursor.le_reach (Nat.le_of_not_lt hin))).1.loose
      rw [hoperator] at hloose
      cases hloose
  . rw [h.near.cursor.state, hmemory]
    exact h.near.small
  . omega
  . rw [v.reach_second]
    intro hreach
    have := (h.stored (by omega)).2
    exact ⟨this, this⟩

theorem behind {rel' : Style → Pen → Pen → Prop} (h : Scan.Alike v rel s s') (hin : s.cursor.pos < v.reach)
    (hrel : rel' s.cursor.state s.cursor.pen s'.cursor.pen) :
    Scan.Alike (v.behind s.cursor.doc s.cursor.pos) rel' s s' := by
  have hline := h.near.cursor.settled.line
  have hpending := h.pending
  refine ⟨⟨(h.near.cursor.fromPos hin).of_rel hrel, h.near.memory, h.near.pending, ?_, h.near.pending_le, h.near.token, h.near.sign,
    h.near.small⟩, hpending, h.stored⟩
  show s.cursor.doc.lineOf s.cursor.pos ≤ s.pending
  omega

end Alike

end Scan

/--
Passes over the same lines start alike if the line above and the style in front say the same.
-/
theorem alike_ofSpan {stop stop' : Nat} (h : v.Begins doc doc' stop stop')
    (hpens : ∀ style, rel style ⟨doc, v.start⟩ ⟨doc', v.start + v.shift⟩)
    (hstyle : doc'.styleBefore (v.start + v.shift) = doc.styleBefore v.start)
    (hmemory : Memory.before doc' (doc'.lineOf (v.start + v.shift)) = .before doc (doc.lineOf v.start)) {s : Scan}
    (hs : Scan.ofSpan (doc.spanOf v.start stop) doc = s) (htoken : isToken s.cursor.state = true)
    (hsign : s.cursor.state = Style.operator → isOperatorSign s.cursor.cur = true)
    (hsmall : s.cursor.state ≠ Style.commentBlock → s.memory.extra < 1 <<< 27) :
    Scan.Alike v rel s (.ofSpan (doc'.spanOf (v.start + v.shift) stop') doc') := by
  subst hs
  have hcursor := h.alike_start hstyle (hpens _)
  have hline := Cursor.line_start h.shows.wellFormed h.startsLine h.lt_stop h.boundary
  have hline' := Cursor.line_start h.shows.wellFormed' h.startsLine' h.lt_stop' h.boundary'
  have hpos := Cursor.pos_start h.shows.wellFormed h.startsLine h.lt_stop h.boundary
  exact
    { near :=
        { cursor := hcursor
          memory := by
            show Memory.before doc' (Cursor.start doc' _).line = .before doc (Cursor.start doc _).line
            rw [hline, hline', hmemory]
          pending := hcursor.line
          first_le := hcursor.first_le
          pending_le := Nat.le_refl _
          token := htoken
          sign := hsign
          small := hsmall }
      pending := rfl
      stored := by
        intro hreach
        have := h.lt_limit
        have := v.limit_le_reach
        have hreach : (Cursor.start doc (doc.spanOf v.start stop)).pos = v.reach := hreach
        omega }

/--
At a line start, a pass that begins there reads back what the line end in front of it has stored.
-/
theorem alike_resume {base : Document} (h : Scan.Alike v (Pen.Same v base) s s')
    (hfits : s.cursor.state = Style.commentBlock → s.memory.extra < 1 <<< 27) (hshift : v.shift = 0) (hwhole : v.whole = false)
    (hpos : s.cursor.pos = v.limit) {stop : Nat} (hlt : v.limit < stop) (hbound : IsBoundary base.text stop)
    (hstop : s.cursor.stop = base.cursorStop stop) :
    Scan.Alike (.ofRange s'.cursor.complete v.limit stop stop) (Pen.Late loose v.limit s.cursor.state) s
      (.ofSpan (s'.cursor.complete.spanOf v.limit stop) s'.cursor.complete) := by
  have hrest := h.near.cursor.interrupted hshift hwhole hpos hlt hbound hstop
  have hstored := (h.stored (by rw [View.reach_of_open hwhole, hpos])).1
  have hsmall : s.memory.extra < 1 <<< 27 := by
    by_cases hblock : s.cursor.state = Style.commentBlock
    . exact hfits hblock
    . exact h.near.small hblock
  have hcursor := hrest.resume loose hstored.segment_lt hstored.loose
  have hline : (Cursor.start s'.cursor.complete (s'.cursor.complete.spanOf v.limit stop)).line = s.cursor.line := hcursor.line
  have hstate : s'.cursor.complete.lineState (s.cursor.line - 1) = s.cursor.doc.lineState (s.cursor.line - 1) := by
    rw [Document.lineState, hrest.lineStates_complete, Document.lineState]
  have hmemory : Memory.before s'.cursor.complete s.cursor.line = s.memory := by
    rw [Memory.before, Document.lineStateAbove?, if_pos hstored.line_pos, hstate, hstored.lineState]
    exact Memory.unpack_pack hsmall
  have hpending := h.pending
  exact
    { near :=
        { cursor := hcursor
          memory := by
            show Memory.before s'.cursor.complete (Cursor.start s'.cursor.complete _).line = _
            rw [hline, hmemory]
          pending := hline.trans hpending.symm
          first_le := by
            rw [hpending]
            exact hcursor.first_le
          pending_le := Nat.le_of_eq hpending
          token := h.near.token
          sign := h.near.sign
          small := h.near.small }
      pending := hpending
      stored := by
        intro hreach
        have : (View.ofRange s'.cursor.complete v.limit stop stop).limit = stop := rfl
        have := (View.ofRange s'.cursor.complete v.limit stop stop).limit_le_reach
        omega }

/--
The pass of Haskell, with the states of the lines that a step has left stored behind it, not in front of the next
one. If it is not `bounded`, it can come to depths that a line state does not hold.
-/
def pass (bounded : Prop) (keywords : Keywords) (options : Options) : Colouring Scan where
  colour doc start stop := colour keywords (doc.spanOf start stop) doc
  start doc start stop := .ofSpan (doc.spanOf start stop) doc
  cursor := Scan.cursor
  step := Scan.advance (.read keywords options)
  loose := loose
  goesOn doc pos doc' pos' := doc'.styleBefore pos' = doc.styleBefore pos
    ∧ Memory.before doc' (doc'.lineOf pos') = .before doc (doc.lineOf pos)
  alike v rel s s' := Scan.Alike v rel s s' ∧ v.options = options
  Storable s := bounded → s.cursor.state = Style.commentBlock → s.memory.extra < 1 <<< 27
  rank s := 2 * s.cursor.remaining + s.weight

/--
The colouring of Haskell, which can be interrupted.
-/
def colouring (keywords : Keywords) (options : Options) : Colouring Scan :=
  pass True keywords options

theorem Scan.weight_le (s : Scan) : s.weight ≤ 1 := by
  unfold weight
  split <;> decide

theorem lawfulSteps_pass (keywords : Keywords) (options : Options) : (pass bounded keywords options).LawfulSteps where
  cursor_alike := fun h => h.1.near.cursor
  alike_second := fun h => ⟨h.1.second, h.2⟩
  storable_alike := by
    intro v rel s s' h hfits
    show bounded → s'.cursor.state = _ → s'.memory.extra < _
    rw [h.1.near.memory, h.1.near.cursor.state]
    exact hfits
  alike_step := fun hrel _ hin h => ⟨(h.1.advance hrel hin _).1, h.2⟩
  rank_step := by
    intro v s hshift _ hin h
    have hshift : (v.behind s.cursor.doc s.cursor.pos).shift = 0 := hshift
    obtain ⟨hstep, hprogress⟩ := (h.1.behind hin rfl).advance (View.closed_equal hshift) hin (.read keywords options)
    have hstop := hstep.near.cursor.stop.trans h.1.near.cursor.stop.symm
    have hstart := hstep.near.cursor.start_le
    have hmore := h.1.near.cursor.more hin
    simp only [Cursor.more, decide_eq_true_eq] at hmore
    show 2 * (s.advance _).cursor.remaining + (s.advance _).weight < 2 * s.cursor.remaining + s.weight
    rcases hprogress with hpos | hweight
    . have := Cursor.remaining_lt hmore hstop hpos
      have := (s.advance (.read keywords options)).weight_le
      omega
    . have hstart : s.cursor.pos ≤ (s.advance (.read keywords options)).cursor.pos := hstart
      have : (s.advance (.read keywords options)).cursor.remaining ≤ s.cursor.remaining := by
        rw [Cursor.remaining, Cursor.remaining, hstop]
        omega
      omega

theorem Scan.more_storeLines (s : Scan) : s.storeLines.cursor.more = s.cursor.more := by
  obtain ⟨pen, heq, _, _⟩ := s.exists_pen_storeLines
  rw [heq]
  rfl

theorem Scan.storeLines_repeatWhile (settings : Settings) (bound : Nat) (s : Scan) :
    (repeatWhile (·.cursor.more) (Scan.step settings) bound s).storeLines
      = repeatWhile (·.cursor.more) (Scan.advance settings) bound s.storeLines := by
  have hstep : ∀ s : Scan, s.storeLines.advance settings = (s.step settings).storeLines := fun _ => rfl
  rw [repeatWhile_semiconj Scan.storeLines Scan.more_storeLines hstep]

/--
Where the steps of the colouring come by, the pass does, with lines that have no state yet.
-/
theorem Scan.exists_iterates {settings : Settings} (h : Iterates (·.cursor.more) (Scan.advance settings) s t)
    (hs : s.storeLines = s) : ∃ u : Scan, Iterates (·.cursor.more) (Scan.step settings) s u ∧ t = u.storeLines := by
  refine h.lockstep (R := fun u t : Scan => t = u.storeLines) ?_ ?_ hs.symm
  . rintro u _ rfl hmore
    rwa [more_storeLines] at hmore
  . rintro u _ rfl _
    rfl

/--
The pass takes the steps of the colouring.
-/
theorem colour_eq_complete {keywords : Keywords} {options : Options} {span : Span} (hoptions : doc.options = options)
    (hgood : (pass bounded keywords options).Good (.ofSpan span doc))
    (hends : (pass bounded keywords options).Ends (.ofSpan span doc) t) :
    colour keywords span doc = t.cursor.complete := by
  unfold colour
  dsimp only
  rw [hoptions, Scan.storeLines_repeatWhile, Scan.storeLines_of_pending rfl]
  have hbound : (pass bounded keywords options).more (.ofSpan span doc) = true →
      (pass bounded keywords options).rank (.ofSpan span doc)
        ≤ (Scan.ofSpan span doc).bound := by
    generalize Scan.ofSpan span doc = s
    intro hmore
    have hmore : s.cursor.more = true := hmore
    have := s.weight_le
    simp only [Cursor.more, decide_eq_true_eq] at hmore
    show 2 * s.cursor.remaining + s.weight ≤ 3 * s.cursor.remaining
    rw [Cursor.remaining]
    omega
  have hsteps : (pass bounded keywords options).LawfulSteps := lawfulSteps_pass keywords options
  have hloop := hsteps.ends_repeatWhile hgood hbound
  rw [hends.1.end_unique hends.2 hloop.1 hloop.2]
  rfl

theorem Memory.before_of_agree {line : Nat} (hstates : ∀ l : Nat, l < line → doc'.lineStates[l]? = doc.lineStates[l]?) :
    Memory.before doc' line = .before doc line := by
  unfold Memory.before Document.lineStateAbove?
  split
  . rw [Document.lineState, Document.lineState, hstates (line - 1) (by omega)]
  . rfl

theorem lawfulPass (keywords : Keywords) (options : Options) : (pass bounded keywords options).LawfulPass where
  toLawfulSteps := lawfulSteps_pass keywords options
  colour_eq := by
    intro doc start stop t _ _ _ _ hgood hends
    obtain ⟨v, _, _, h, hoptions⟩ := hgood.alike
    dsimp only [pass]
    exact colour_eq_complete (h.near.cursor.shows.options.trans hoptions) hgood hends
  goesOn_of_agree := by
    intro doc doc' start hdoc hsame hstyles hstates _
    refine ⟨Document.styleBefore_congr hstyles, ?_⟩
    rw [hsame.lineOf]
    exact Memory.before_of_agree hstates
  alike_start := by
    intro v rel doc doc' stop stop' hrel hbegins hgoes hgood hpens
    obtain ⟨v₁, _, _, h, hoptions⟩ := hgood.alike
    have halike := alike_ofSpan hbegins hpens hgoes.1 hgoes.2 rfl h.near.token h.near.sign h.near.small
    exact ⟨halike, halike.near.cursor.shows.options.symm.trans (h.near.cursor.shows.options.trans hoptions)⟩

/--
Haskell can be interrupted at every line start at which the depth of a block comment fits into a line state.
-/
theorem lawful_colouring (keywords : Keywords) (options : Options) : (colouring keywords options).Lawful where
  toLawfulPass := lawfulPass keywords options
  resume := by
    intro v base s t stop hfits hshift hwhole hstop _ h hmore hlt hbound hat
    have hpos := h.1.near.cursor.pos_eq_reach (by omega) hmore
    rw [View.reach_of_open hwhole] at hpos
    have halike := alike_resume h.1 (hfits trivial) hshift hwhole hpos hlt hbound hat
    exact ⟨_, halike, halike.near.cursor.shows.options.symm.trans (h.1.near.cursor.shows.options.trans h.2)⟩

/--
What Haskell leaves in front of a line depends on the text in front of it only, however deep its comments nest.
-/
theorem forward_pass (keywords : Keywords) (options : Options) : (pass bounded keywords options).Forward where
  toLawfulPass := lawfulPass keywords options
  loose_of_reach := fun h hpos => (h.1.stored hpos).1.loose
  alike_behind := fun h hin _ hrel => ⟨h.1.behind hin hrel, h.2⟩

/--
In a pass over a range, the depth of each block comment fits into a line state.
-/
def NestingFits (keywords : Keywords) (doc : Document) (start stop : Nat) : Prop :=
  ∀ s, Iterates (·.cursor.more) (Scan.step (.read keywords doc.options)) (.ofSpan (doc.spanOf start stop) doc) s →
    s.cursor.state = Style.commentBlock → s.memory.extra < 1 <<< 27

/--
A pass over whole lines starts alike to itself if a line end can have left the style in front of it.
-/
theorem alike_start (hdoc : doc.WellFormed) {start stop : Nat} (hstart : startsLine doc.text start = true) (hlt : start < stop)
    (hstop : IsBoundary doc.text stop) (hloose : loose (doc.styleBefore start) = true) :
    Scan.Alike (.ofRange doc start stop stop) Pen.Equal (.ofSpan (doc.spanOf start stop) doc)
      (.ofSpan (doc.spanOf start stop) doc) := by
  have hbegins := View.Begins.ofRange hdoc (.refl doc) hstart hlt hstop (Nat.le_refl stop) hstop
  have hpens : ∀ style, Pen.Equal style ⟨doc, start⟩ ⟨doc, start⟩ := fun _ => rfl
  have hstate : (Scan.ofSpan (doc.spanOf start stop) doc).cursor.state = doc.styleBefore start :=
    Cursor.state_start hdoc hstart hlt hstop
  refine alike_ofSpan hbegins hpens rfl rfl rfl ?_ ?_ (fun _ => Memory.extra_before_lt _ _)
  . rw [hstate, isToken, hloose]
    rfl
  . rw [hstate]
    intro hoperator
    rw [hoperator] at hloose
    exact absurd hloose (by decide)

theorem good_start (keywords : Keywords) (hdoc : doc.WellFormed) (hpos : 0 < doc.size)
    (hfits : NestingFits keywords doc 0 doc.size) :
    (colouring keywords doc.options).Good ((colouring keywords doc.options).start doc 0 doc.size) := by
  refine ⟨⟨_, rfl, rfl, alike_start hdoc startsLine_zero hpos (.inr rfl) rfl, rfl⟩, ?_⟩
  intro t hrun _
  obtain ⟨s, hs, rfl⟩ := Scan.exists_iterates hrun (Scan.storeLines_of_pending rfl)
  obtain ⟨pen, heq, _, _⟩ := s.exists_pen_storeLines
  rw [heq]
  exact hfits s hs

/--
A pass that need not keep its depths begins well.
-/
theorem good_pass (keywords : Keywords) (hdoc : doc.WellFormed) {start stop : Nat} (hstart : startsLine doc.text start = true)
    (hlt : start < stop) (hstop : IsBoundary doc.text stop) (hloose : loose (doc.styleBefore start) = true) :
    (pass False keywords doc.options).Good ((pass False keywords doc.options).start doc start stop) where
  alike := ⟨_, rfl, Colouring.LawfulPass.stop_ofRange doc start stop, alike_start hdoc hstart hlt hstop hloose, rfl⟩
  storable := fun _ _ => False.elim

theorem drives_pass {session : Session} (h : session.lexer = lexer) (options : Options) :
    (pass bounded session.keywords options).Drives session := by
  intro doc span start stop hdoc hstart hlt hstop hspan
  rw [h]
  dsimp only [lexer, pass]
  rw [← hdoc.wholeLines_spanOf hstart hlt hstop] at hspan
  unfold colour Scan.ofSpan
  rw [Cursor.start_congr hspan]

theorem drives_colouring {session : Session} (h : session.lexer = lexer) (options : Options) :
    (colouring session.keywords options).Drives session :=
  drives_pass h options

/--
Colouring a text of Haskell in parts, whichever its cuts are, leaves what colouring it at once does, as
long as no block comment is nested deeper than a line state can tell.
-/
theorem colourInParts_eq_colour_of_nestingFits (session : Session) (hsession : session.lexer = lexer) (text : Array UInt8)
    (encoding : Encoding) (options : Options)
    (hfits : NestingFits session.keywords (.fresh text encoding options) 0 text.size) (cuts : List Nat)
    (hcuts : cuts.Pairwise (· ≤ ·)) :
    session.colourInParts (.fresh text encoding options) cuts
      = session.colour (.fresh text encoding options) 0 text.size := by
  have hdoc := Document.wellFormed_fresh text encoding options
  exact Colouring.colourInParts_eq (lawful_colouring session.keywords (Document.fresh text encoding options).options)
    (drives_colouring hsession _) hdoc (fun hpos => good_start session.keywords hdoc hpos hfits) hcuts

/--
A comment in a comment and a string with a gap that go over line ends, with cuts in two of the lines.
-/
theorem colourInParts_eq_colour_comment_gap :
    let session := Session.ofLexer lexer
    let text := "\x7b- \x7b-\nb-\x7d\n-\x7d c# \"d\\\n\\e\"\n".toUTF8.data
    let doc := Document.fresh text .utf8 (Options.parse "lexer.haskell.allow.hash=1")
    NestingFits session.keywords doc 0 text.size ∧ session.colourInParts doc [3, 9, 18] = session.colour doc 0 text.size := by
  intro session text doc
  have hcheck : holdsAlong (fun s => decide (s.cursor.state = Style.commentBlock → s.memory.extra < 1 <<< 27)) (·.cursor.more)
      (Scan.step (.read session.keywords doc.options)) 40 (.ofSpan (doc.spanOf 0 text.size) doc) = true := by
    decide +kernel
  have hfits : NestingFits session.keywords doc 0 text.size := by
    intro s hrun
    have := hrun.of_holdsAlong hcheck
    exact of_decide_eq_true this
  exact ⟨hfits, colourInParts_eq_colour_of_nestingFits session rfl text .utf8 _ hfits [3, 9, 18] (by decide)⟩

end Highlight.Haskell
