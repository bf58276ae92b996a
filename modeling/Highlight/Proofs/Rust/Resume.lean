import Highlight.Proofs.Cursor.Resume
import Highlight.Proofs.Locality
import Highlight.Proofs.Rust.Alike
import Highlight.Proofs.Session.Parts
import Highlight.Rust

/-!
Rust can be interrupted at every line start. All that a step knows there is the style in front of the line,
the character in front of it, and the depth of nested comments, which is the state of the line above.
-/

namespace Highlight.Rust

open LineIndex

variable {strict bounded : Prop} {loose' : Style → Bool} {v : View} {rel : Style → Pen → Pen → Prop} {s s' : Scan}
  {doc doc' : Document}

namespace Nesting

theorem unpack_pack {depth : Nat} (h : depth < 1 <<< 31) : unpack (pack depth) = depth := by
  rw [unpack, pack, LineState.saturate_of_lt h, Int32.toInt_ofNat_of_lt h, Int.toNat_natCast]

theorem before_of_agree {line : Nat} (h : ∀ l : Nat, l < line → doc'.lineStates[l]? = doc.lineStates[l]?) :
    before doc' line = before doc line := by
  unfold before Document.lineStateAbove?
  split
  . rw [Document.lineState, Document.lineState, h (line - 1) (by omega)]
  . rfl

theorem before_of_lineState {line depth : Nat} (hline : 0 < line) (h : doc.lineState (line - 1) = pack depth)
    (hdepth : depth < 1 <<< 31) : before doc line = depth := by
  rw [before, Document.lineStateAbove?, if_pos hline, h]
  exact unpack_pack hdepth

end Nesting

/--
What a step leaves behind at a line start for a pass that begins there.
-/
structure Scan.Stored (s : Scan) : Prop where
  segment_lt : s.cursor.pen.segment < s.cursor.pos
  line_pos : 0 < s.cursor.line
  lineState : s.cursor.doc.lineState (s.cursor.line - 1) = Nesting.pack s.nesting
  prev : s.cursor.pos ≤ s.cursor.doc.size → s.cursor.prev = (s.cursor.doc.byteAt (s.cursor.pos - 1) 0).toNat

/--
What is so with a scan between two steps of a pass from `start` on.
-/
structure Scan.Kept (strict : Prop) (start : Nat) (s : Scan) : Prop where
  loose : strict → s.cursor.atLineStart = true → loose s.cursor.state = true
  stored : strict → s.cursor.atLineStart = true → s.cursor.pos = start ∨ s.Stored
  holds : s.cursor.atLineStart = false → s.Holds

/--
Two scans between two steps, at the same place of the part that a view shows. A pass that is not `strict` can begin in
any token.
-/
structure Scan.Alike (strict : Prop) (v : View) (rel : Style → Pen → Pen → Prop) (s s' : Scan) : Prop where
  cursor : s.cursor.Alike v rel s'.cursor
  nesting : s'.nesting = s.nesting
  prev : s'.cursor.prev = s.cursor.prev
  known : Known strict s s'
  single : strict → ∀ page, v.encoding ≠ .doubleByte page
  lineStates : ∀ l : Nat, v.first ≤ l → l < s.cursor.line →
    s'.cursor.doc.lineStates[l + v.shift]? = s.cursor.doc.lineStates[l]?
  kept : s.Kept strict v.start
  kept' : s'.Kept strict (v.start + v.shift)

namespace Scan

theorem kept_forward (h : s.cursor.Settled) (hmore : s.cursor.more = true)
    (hsingle : strict → ∀ page, s.cursor.doc.encoding ≠ .doubleByte page) (hholds : s.Holds)
    (hover : strict → s.cursor.atLineEnd = true → Rust.loose s.cursor.state = true) (start : Nat) :
    (s.withCursor s.cursor.forward).Kept strict start := by
  have hline := Cursor.line_forward hmore
  have hdoc : s.cursor.forward.doc = s.cursor.doc := congrArg Pen.doc (Cursor.pen_forward hmore)
  constructor
  . show strict → s.cursor.forward.atLineStart = true → Rust.loose s.cursor.forward.state = true
    rw [Cursor.atLineStart_forward hmore, Cursor.state_forward hmore]
    exact hover
  . intro hstrict hstart
    have hend : s.cursor.atLineEnd = true := (Cursor.atLineStart_forward hmore).symm.trans hstart
    rw [hend, if_pos rfl] at hline
    have hwidth := h.width_pos
    have hsegment := h.segment_le
    refine .inr ⟨?_, ?_, ?_, ?_⟩
    . show s.cursor.forward.pen.segment < s.cursor.forward.pos
      rw [Cursor.pen_forward hmore, Cursor.pos_forward hmore]
      omega
    . show 0 < s.cursor.forward.line
      omega
    . show s.cursor.forward.doc.lineState (s.cursor.forward.line - 1) = Nesting.pack s.nesting
      rw [hdoc, hline, Nat.add_sub_cancel]
      exact hholds
    . show s.cursor.forward.pos ≤ s.cursor.forward.doc.size →
        s.cursor.forward.prev = (s.cursor.forward.doc.byteAt (s.cursor.forward.pos - 1) 0).toNat
      rw [Cursor.pos_forward hmore, Cursor.prev_forward hmore, hdoc]
      exact h.cur_of_atLineEnd (hsingle hstrict) hend
  . intro hstart
    have hend : s.cursor.atLineEnd = false := (Cursor.atLineStart_forward hmore).symm.trans hstart
    rw [hend, if_neg Bool.false_ne_true] at hline
    show s.cursor.forward.doc.lineState s.cursor.forward.line = Nesting.pack s.nesting
    rw [hdoc, hline]
    exact hholds

/--
Once its nesting is stored, the current line has the same state in both scans, as have the lines in front of it.
-/
theorem Ready.getElem?_lineStates (h : Ready strict v rel s s') {l : Nat} (hfirst : v.first ≤ l) (hle : l ≤ s.cursor.line) :
    s'.cursor.doc.lineStates[l + v.shift]? = s.cursor.doc.lineStates[l]? := by
  have hc := h.inside.cursor
  rcases Nat.eq_or_lt_of_le hle with hcurrent | habove
  . have hholds := h.inside.holds
    have hholds' := h.inside.holds'
    have hlast := hc.line_lt_last h.inside.lt_reach
    have hsize : l < s.cursor.doc.lineStates.size := by
      rw [hc.shows.wellFormed.lineStates, hcurrent]
      exact Nat.lt_of_lt_of_le hlast hc.shows.last_le
    have hsize' : l + v.shift < s'.cursor.doc.lineStates.size := by
      have := hc.shows.last_le'
      rw [hc.shows.wellFormed'.lineStates]
      omega
    rw [Scan.Holds, Document.lineState, ← hcurrent, Array.getElem?_eq_getElem hsize] at hholds
    rw [Scan.Holds, Document.lineState, hc.line, ← hcurrent, Array.getElem?_eq_getElem hsize', h.inside.nesting, ← hholds]
      at hholds'
    rw [Array.getElem?_eq_getElem hsize, Array.getElem?_eq_getElem hsize']
    exact congrArg some hholds'
  . exact h.inside.lineStates l hfirst habove

/--
At the end of a step both scans go forward, maybe to the next line. Then the line that they leave has the
same state in both.
-/
theorem Ready.forward (h : Ready strict v rel s s') :
    Scan.Alike strict v rel (s.withCursor s.cursor.forward) (s'.withCursor s'.cursor.forward)
      ∧ v.start < s.cursor.forward.pos := by
  have hin := h.inside.lt_reach
  have hc := h.inside.cursor
  have hmore := hc.more hin
  have hmore' := hc.more' hin
  have hdoc : s.cursor.forward.doc = s.cursor.doc := congrArg Pen.doc (Cursor.pen_forward hmore)
  have hdoc' : s'.cursor.forward.doc = s'.cursor.doc := congrArg Pen.doc (Cursor.pen_forward hmore')
  have hstate := Cursor.state_forward hmore
  have hwidth := hc.settled.width_pos
  have hstart := hc.start_le
  have hsingle : strict → ∀ page, s.cursor.doc.encoding ≠ .doubleByte page := by
    rw [hc.shows.encoding]
    exact h.inside.single
  have hsingle' : strict → ∀ page, s'.cursor.doc.encoding ≠ .doubleByte page := by
    rw [hc.shows.encoding']
    exact h.inside.single
  have hover' : strict → s'.cursor.atLineEnd = true → Rust.loose s'.cursor.state = true := by
    rw [hc.atLineEnd hin, hc.state]
    exact h.goesOver
  refine
    ⟨{ cursor := hc.forward hin
       nesting := h.inside.nesting
       prev := hc.prev_forward hin
       known := ?_
       single := h.inside.single
       lineStates := ?_
       kept := kept_forward hc.settled hmore hsingle h.inside.holds h.goesOver _
       kept' := kept_forward hc.settled' hmore' hsingle' h.inside.holds' hover' _ }, ?_⟩
  . constructor
    . show strict → isToken s.cursor.forward.state = true
      rw [hstate]
      exact h.known.token
    . intro hdocKeyword
      exact h.known.docComment (hstate.symm.trans hdocKeyword)
    . intro hnumber
      exact h.known.number (hstate.symm.trans hnumber)
  . intro l hl hlt
    have hlt : l < s.cursor.forward.line := hlt
    show s'.cursor.forward.doc.lineStates[l + v.shift]? = s.cursor.forward.doc.lineStates[l]?
    rw [hdoc, hdoc']
    refine h.getElem?_lineStates hl ?_
    rw [Cursor.line_forward hmore] at hlt
    split at hlt
    . omega
    . omega
  . rw [Cursor.pos_forward hmore]
    omega

namespace Alike

theorem inside (hrel : v.Closed Rust.loose rel) (h : Scan.Alike strict v rel s s') (hin : s.cursor.pos < v.reach) :
    Inside strict v rel (if s.cursor.atLineStart then s.storeNesting else s) (if s'.cursor.atLineStart then s'.storeNesting else s') := by
  have hnear : Near strict v rel s s' := ⟨h.cursor, hin, h.nesting, h.prev, h.single, h.lineStates⟩
  rw [h.cursor.atLineStart hin]
  split
  . exact hnear.storeNesting hrel
  . next hstart =>
    have hstart := Bool.eq_false_iff.mpr hstart
    exact ⟨hnear, h.kept.holds hstart, h.kept'.holds ((h.cursor.atLineStart hin).trans hstart)⟩

theorem known_stored (h : Scan.Alike strict v rel s s') (hin : s.cursor.pos < v.reach) :
    Known strict (if s.cursor.atLineStart then s.storeNesting else s) (if s'.cursor.atLineStart then s'.storeNesting else s') := by
  rw [h.cursor.atLineStart hin]
  split
  . exact ⟨h.known.token, h.known.docComment, h.known.number⟩
  . exact h.known

/--
One step. It has moved on.
-/
theorem step (hrel : v.Closed Rust.loose rel) (h : Scan.Alike strict v rel s s') (hin : s.cursor.pos < v.reach) (keywords : Keywords) :
    Scan.Alike strict v rel (s.step keywords) (s'.step keywords) ∧ v.start < (s.step keywords).cursor.pos := by
  unfold Scan.step
  exact (((h.inside hrel hin).leave hrel (h.known_stored hin) keywords).enter hrel).forward

theorem second (h : Scan.Alike strict v rel s s') : Scan.Alike strict v.second Pen.Equal s' s' where
  cursor := h.cursor.second
  nesting := rfl
  prev := rfl
  known := by
    refine ⟨?_, ?_, fun _ => ⟨rfl, rfl⟩⟩
    . rw [h.cursor.state]
      exact h.known.token
    . intro hstate
      obtain ⟨hcomment, hloose⟩ := h.known.docComment (h.cursor.state.symm.trans hstate)
      rw [hcomment]
      exact ⟨rfl, hloose⟩
  single := h.single
  lineStates := fun _ _ _ => rfl
  kept := h.kept'
  kept' := h.kept'

theorem behind {rel' : Style → Pen → Pen → Prop} (h : Scan.Alike strict v rel s s') (hin : s.cursor.pos < v.reach)
    (hrel : rel' s.cursor.state s.cursor.pen s'.cursor.pen) :
    Scan.Alike strict (v.behind s.cursor.doc s.cursor.pos) rel' s s' where
  cursor := (h.cursor.fromPos hin).of_rel hrel
  nesting := h.nesting
  prev := h.prev
  known := h.known
  single := h.single
  lineStates := by
    intro l hl hlt
    have hfirst := h.cursor.shows.first_le h.cursor.start_le
    exact h.lineStates l (Nat.le_trans hfirst hl) hlt
  kept := ⟨h.kept.loose, fun _ _ => .inl rfl, h.kept.holds⟩
  kept' := ⟨h.kept'.loose, fun _ _ => .inl h.cursor.pos, h.kept'.holds⟩

end Alike

end Scan

/--
What a pass looks up in front of the line start it begins at.
-/
structure GoesOn (doc : Document) (pos : Nat) (doc' : Document) (pos' : Nat) : Prop where
  style : doc'.styleBefore pos' = doc.styleBefore pos
  nesting : Nesting.before doc' (doc'.lineOf pos') = Nesting.before doc (doc.lineOf pos)
  prev : (if 0 < pos' then (doc'.byteAt (pos' - 1) 0).toNat else 0) = if 0 < pos then (doc.byteAt (pos - 1) 0).toNat else 0

theorem goesOn_of_agree {pos : Nat} (htext : ∀ i : Nat, i < pos → doc'.text[i]? = doc.text[i]?)
    (hline : doc'.lineOf pos = doc.lineOf pos) (hstyles : ∀ i : Nat, i < pos → doc'.styles[i]? = doc.styles[i]?)
    (hstates : ∀ l : Nat, l < doc.lineOf pos → doc'.lineStates[l]? = doc.lineStates[l]?) : GoesOn doc pos doc' pos where
  style := Document.styleBefore_congr hstyles
  nesting := by
    rw [hline]
    exact Nesting.before_of_agree hstates
  prev := by
    split
    . rw [Document.byteAt, Document.byteAt, htext (pos - 1) (by omega)]
    . rfl

theorem cursor_ofSpan (span : Span) (doc : Document) : (Scan.ofSpan span doc).cursor = Cursor.start doc span := rfl

theorem nesting_ofSpan (span : Span) (doc : Document) :
    (Scan.ofSpan span doc).nesting = Nesting.before doc (Cursor.start doc span).line := rfl

/--
Passes over the same lines start alike if they look up the same.
-/
theorem alike_ofSpan {stop stop' : Nat} (h : v.Begins doc doc' stop stop')
    (hpens : ∀ style, rel style ⟨doc, v.start⟩ ⟨doc', v.start + v.shift⟩) (hgoes : GoesOn doc v.start doc' (v.start + v.shift))
    (hloose : strict → loose (doc.styleBefore v.start) = true) (hsingle : strict → ∀ page, v.encoding ≠ .doubleByte page) :
    Scan.Alike strict v rel (.ofSpan (doc.spanOf v.start stop) doc) (.ofSpan (doc'.spanOf (v.start + v.shift) stop') doc') := by
  have hcursor := h.alike_start hgoes.style (hpens _)
  have hpos := Cursor.pos_start h.shows.wellFormed h.startsLine h.lt_stop h.boundary
  have hpos' := Cursor.pos_start h.shows.wellFormed' h.startsLine' h.lt_stop' h.boundary'
  have hline := Cursor.line_start h.shows.wellFormed h.startsLine h.lt_stop h.boundary
  have hline' := Cursor.line_start h.shows.wellFormed' h.startsLine' h.lt_stop' h.boundary'
  have hstart := Cursor.atLineStart_start h.shows.wellFormed h.startsLine h.lt_stop h.boundary
  have hstart' := Cursor.atLineStart_start h.shows.wellFormed' h.startsLine' h.lt_stop' h.boundary'
  have hloose : strict → loose (Cursor.start doc (doc.spanOf v.start stop)).state = true := by
    rw [Cursor.state_start h.shows.wellFormed h.startsLine h.lt_stop h.boundary]
    exact hloose
  refine
    { cursor := hcursor
      nesting := ?_
      prev := ?_
      known := ⟨fun hstrict => isToken_of_isPlain (isPlain_of_loose (hloose hstrict)), fun _ => ⟨rfl, rfl⟩, fun _ => ⟨rfl, rfl⟩⟩
      single := hsingle
      lineStates := ?_
      kept := ⟨fun hstrict _ => hloose hstrict, fun _ _ => .inl hpos, fun hfalse => absurd (hstart.symm.trans hfalse) (by decide)⟩
      kept' := ⟨fun hstrict _ => ?_, fun _ _ => .inl hpos', fun hfalse => absurd (hstart'.symm.trans hfalse) (by decide)⟩ }
  . rw [nesting_ofSpan, nesting_ofSpan, hline, hline', hgoes.nesting]
  . rw [cursor_ofSpan, cursor_ofSpan, Cursor.prev_start h.shows.wellFormed h.startsLine h.lt_stop h.boundary,
      Cursor.prev_start h.shows.wellFormed' h.startsLine' h.lt_stop' h.boundary', hgoes.prev]
  . -- No line of the part is above the first one.
    intro l hl hlt
    have hlt : l < (Cursor.start doc (doc.spanOf v.start stop)).line := hlt
    rw [hline, ← h.shows.first] at hlt
    omega
  . exact (congrArg loose hcursor.state).trans (hloose hstrict)

/--
At a line start, a pass that begins there finds what the step in front of it has left.
-/
theorem alike_resume {base : Document} (h : Scan.Alike True v (Pen.Same v base) s s') (hfits : s.nesting < 1 <<< 31)
    (hshift : v.shift = 0) (hwhole : v.whole = false) (hlimit : v.start < v.limit) (hpos : s.cursor.pos = v.limit) {stop : Nat}
    (hlt : v.limit < stop) (hbound : IsBoundary base.text stop) (hstop : s.cursor.stop = base.cursorStop stop) :
    Scan.Alike True (.ofRange s'.cursor.complete v.limit stop stop) (Pen.Late loose v.limit s.cursor.state) s
      (.ofSpan (s'.cursor.complete.spanOf v.limit stop) s'.cursor.complete) := by
  have hrest := h.cursor.interrupted hshift hwhole hpos hlt hbound hstop
  have hsame := hrest.sameSource
  have hstart := hrest.atLineStart
  have hloose := h.kept.loose trivial hstart
  have hstored := (h.kept.stored trivial hstart).resolve_left (by omega)
  have hcursor := hrest.resume loose hstored.segment_lt hloose
  have hlineEq : (Cursor.start s'.cursor.complete (s'.cursor.complete.spanOf v.limit stop)).line = s.cursor.line := hcursor.line
  refine
    { cursor := hcursor
      nesting := ?_
      prev := ?_
      known := .of_isPlain (isPlain_of_loose hloose)
      single := ?_
      lineStates := ?_
      kept := ⟨h.kept.loose, fun _ _ => .inl hpos, h.kept.holds⟩
      kept' := ⟨fun _ _ => ?_, fun _ _ => .inl hrest.pos_start,
        fun hfalse => absurd (hrest.atLineStart_start.symm.trans hfalse) (by decide)⟩ }
  . rw [nesting_ofSpan, hlineEq]
    refine Nesting.before_of_lineState hstored.line_pos ?_ hfits
    rw [Document.lineState, hrest.lineStates_complete]
    exact hstored.lineState
  . rw [cursor_ofSpan]
    exact hrest.prev_start (by omega) (hstored.prev hrest.pos_le_size)
  . intro _ page hpage
    exact h.single trivial page (h.cursor.shows.encoding.symm.trans (hsame.encoding.symm.trans hpage))
  . -- The lines above belong to the pass in front.
    intro l hl hlt
    have hfirst : s'.cursor.complete.lineOf v.limit ≤ l := hl
    rw [hsame.lineOf] at hfirst
    have hsize := h.cursor.shows.limit_le
    rw [h.cursor.settled.line, hpos, if_neg (by omega)] at hlt
    omega
  . exact (congrArg loose hcursor.state).trans hloose

/--
The pass of Rust, which does not depend on options. If it is not `strict`, it can begin in any token, and if it is not
`bounded`, it can come to depths that a line state does not hold.
-/
def pass (strict bounded : Prop) (loose : Style → Bool) (keywords : Keywords) : Colouring Scan where
  colour doc start stop := colour keywords (doc.spanOf start stop) doc
  start doc start stop := .ofSpan (doc.spanOf start stop) doc
  cursor := Scan.cursor
  step := Scan.step keywords
  loose := loose
  goesOn := GoesOn
  alike := Scan.Alike strict
  Storable s := bounded → s.nesting < 1 <<< 31
  rank s := s.cursor.remaining

/--
The colouring of Rust, which can be interrupted.
-/
def colouring (keywords : Keywords) : Colouring Scan :=
  pass True True loose keywords

section Pass

variable (hloose : ∀ style, loose' style = true → loose style = true)
include hloose

theorem lawfulSteps_pass (keywords : Keywords) : (pass strict bounded loose' keywords).LawfulSteps where
  cursor_alike := fun h => h.cursor
  alike_second := fun h => h.second
  storable_alike := fun h hfits hbounded => Nat.lt_of_le_of_lt (Nat.le_of_eq h.nesting) (hfits hbounded)
  alike_step := fun hrel _ hin h => (h.step (hrel.mono hloose) hin keywords).1
  rank_step := by
    intro v s hshift _ hin h
    have hshift : (v.behind s.cursor.doc s.cursor.pos).shift = 0 := hshift
    obtain ⟨hstep, hlt⟩ := (h.behind hin rfl).step (View.closed_equal hshift) hin keywords
    have hstop : (s.step keywords).cursor.stop = s.cursor.stop := hstep.cursor.stop.trans h.cursor.stop.symm
    have hmore := h.cursor.more hin
    simp only [Cursor.more, decide_eq_true_eq] at hmore
    exact Cursor.remaining_lt hmore hstop hlt

theorem lawfulPass (keywords : Keywords) : (pass strict bounded loose' keywords).LawfulPass where
  toLawfulSteps := lawfulSteps_pass hloose keywords
  colour_eq := by
    intro doc start stop t _ _ _ _ hgood hends
    have hloop := (lawfulSteps_pass hloose keywords).ends_repeatWhile hgood (fun _ => Nat.le_refl _)
    rw [hends.1.end_unique hends.2 hloop.1 hloop.2]
    rfl
  goesOn_of_agree := by
    intro doc doc' start hdoc hsame hstyles hstates _
    refine goesOn_of_agree (fun i _ => ?_) (hsame.lineOf start) hstyles hstates
    rw [hsame.text]
  alike_start := by
    intro v rel doc doc' stop stop' _ hbegins hgoes hgood hpens
    obtain ⟨v₁, _, _, h⟩ := hgood.alike
    have hpen := Cursor.pen_start hbegins.shows.wellFormed hbegins.startsLine hbegins.lt_stop hbegins.boundary
    have hencoding : (Cursor.start doc (doc.spanOf v.start stop)).pen.doc.encoding = v₁.encoding := h.cursor.shows.encoding
    have hloose := fun hstrict => h.kept.loose hstrict (Cursor.atLineStart_start hbegins.shows.wellFormed hbegins.startsLine hbegins.lt_stop hbegins.boundary)
    rw [hpen] at hencoding
    refine alike_ofSpan hbegins hpens hgoes ?_ ?_
    . rw [← Cursor.state_start hbegins.shows.wellFormed hbegins.startsLine hbegins.lt_stop hbegins.boundary]
      exact hloose
    . intro hstrict page hpage
      exact h.single hstrict page (hencoding.symm.trans (hbegins.shows.encoding.trans hpage))

end Pass

/--
Rust can be interrupted at every line start.
-/
theorem lawful_colouring (keywords : Keywords) : (colouring keywords).Lawful where
  toLawfulPass := lawfulPass (fun _ => id) keywords
  resume := by
    intro v base s t stop hfits hshift hwhole hstop hlimit h hmore hlt hbound hat
    have hpos := h.cursor.pos_eq_reach (by omega) hmore
    rw [View.reach_of_open hwhole] at hpos
    exact ⟨_, alike_resume h (hfits trivial) hshift hwhole hlimit hpos hlt hbound hat⟩

/--
What Rust leaves in front of a line depends on the text in front of it only, however deep its comments nest.
-/
theorem forward_pass (keywords : Keywords) : (pass True bounded loose keywords).Forward where
  toLawfulPass := lawfulPass (fun _ => id) keywords
  loose_of_reach := fun h hpos => h.kept.loose trivial (h.cursor.atLineStart_of_reach hpos)
  alike_behind := fun h hin _ hrel => h.behind hin hrel

/--
So do the depths of nested comments that it stores there.
-/
theorem local_colouring (keywords : Keywords) : (colouring keywords).Local True where
  toLawful := lawful_colouring keywords
  loose_of_reach := (forward_pass keywords).loose_of_reach
  alike_behind := (forward_pass keywords).alike_behind
  lineStates_of_alike := by
    intro _ v rel s s' hshift h l hl hlt
    have := h.lineStates l hl hlt
    rwa [hshift] at this
  goesOn_of_front := fun htext hline hstyles hstates => goesOn_of_agree htext hline hstyles (hstates trivial)

/--
The depths of nested comments that a pass over all of a text comes to, if there is one, fit into line states.
-/
def NestingFits (keywords : Keywords) (doc : Document) : Prop :=
  0 < doc.size → ∀ s, Iterates (·.cursor.more) (Scan.step keywords) (.ofSpan (doc.spanOf 0 doc.size) doc) s → s.nesting < 1 <<< 31

theorem alike_start (hdoc : doc.WellFormed) {start stop : Nat} (hstart : startsLine doc.text start = true) (hlt : start < stop)
    (hstop : IsBoundary doc.text stop) (hloose : strict → loose (doc.styleBefore start) = true)
    (hsingle : strict → ∀ page, doc.encoding ≠ .doubleByte page) :
    Scan.Alike strict (.ofRange doc start stop stop) Pen.Equal (.ofSpan (doc.spanOf start stop) doc)
      (.ofSpan (doc.spanOf start stop) doc) := by
  have hbegins := View.Begins.ofRange hdoc (.refl doc) hstart hlt hstop (Nat.le_refl stop) hstop
  exact alike_ofSpan hbegins (fun _ => rfl) ⟨rfl, rfl, rfl⟩ hloose hsingle

theorem good_start (keywords : Keywords) (hdoc : doc.WellFormed) (hpos : 0 < doc.size)
    (hsingle : ∀ page, doc.encoding ≠ .doubleByte page) (hfits : NestingFits keywords doc) :
    (colouring keywords).Good ((colouring keywords).start doc 0 doc.size) where
  alike := ⟨_, rfl, rfl, alike_start hdoc startsLine_zero hpos (.inr rfl) (fun _ => rfl) (fun _ => hsingle)⟩
  storable := fun s hrun _ => hfits hpos s hrun

/--
A pass that need not keep its depths begins well.
-/
theorem good_pass (keywords : Keywords) (hdoc : doc.WellFormed) {start stop : Nat} (hstart : startsLine doc.text start = true)
    (hlt : start < stop) (hstop : IsBoundary doc.text stop) (hloose : strict → loose (doc.styleBefore start) = true)
    (hsingle : strict → ∀ page, doc.encoding ≠ .doubleByte page) :
    (pass strict False loose' keywords).Good ((pass strict False loose' keywords).start doc start stop) where
  alike := ⟨_, rfl, Colouring.LawfulPass.stop_ofRange doc start stop, alike_start hdoc hstart hlt hstop hloose hsingle⟩
  storable := fun _ _ => False.elim

theorem drives_pass {session : Session} (h : session.lexer = lexer) :
    (pass strict bounded loose' session.keywords).Drives session := by
  intro doc span start stop hdoc hstart hlt hstop hspan
  rw [h]
  dsimp only [lexer, pass]
  rw [← hdoc.wholeLines_spanOf hstart hlt hstop] at hspan
  unfold colour Scan.ofSpan
  rw [Cursor.start_congr hspan]

theorem drives_colouring {session : Session} (h : session.lexer = lexer) :
    (colouring session.keywords).Drives session :=
  drives_pass h

end Highlight.Rust
