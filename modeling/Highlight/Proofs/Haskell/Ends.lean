import Highlight.Proofs.Cursor.Walk
import Highlight.Proofs.Haskell.Resume

/-!
Every pass of Haskell that starts with a style that a line end can have ends, however deep its comments nest, and leaves
such a style at each line end that it comes by. So all later passes end, too.
-/

namespace Highlight.Haskell

open LineIndex

variable {doc doc' : Document} {span : Span} {s t u : Scan}

namespace Scan

/--
The loops of a step end by themselves: behind an operator stands no operator sign, and behind a name nothing that it
goes on with.
-/
structure LoopsEnd (magicHash : Bool) (s : Scan) : Prop where
  operator : isOperatorSign
    (repeatWhile (isOperatorSign ·.cur) Cursor.forward (s.cursor.remaining + 1) s.cursor).cur = false
  name : ((s.skipName magicHash).cursor.more && (goingOn? magicHash (s.skipName magicHash)).isSome) = false

theorem remaining_forward_lt {c : Cursor} (h : c.Settled) (hmore : c.more = true) : c.forward.remaining < c.remaining := by
  have hpos : c.pos < c.stop := of_decide_eq_true hmore
  have hwidth := h.width_pos
  apply Cursor.remaining_lt hpos c.stop_forward
  rw [Cursor.pos_forward hmore]
  omega

theorem operatorSigns_end {c : Cursor} (h : c.Settled) :
    isOperatorSign (repeatWhile (isOperatorSign ·.cur) Cursor.forward (c.remaining + 1) c).cur = false := by
  -- Behind its span, a cursor sees blanks after one step more.
  refine @more_repeatWhile_of_invariant Cursor (isOperatorSign ·.cur) _ (fun c => c.Settled ∨ c.more = false)
    (fun c => if isOperatorSign c.cur then c.remaining + 1 else 0) ?_ ?_ _ _ (.inl h) ?_
  . intro c _ hc
    cases hmore : c.more with
    | true => exact .inl ((hc.resolve_right (by simp [hmore])).forward hmore)
    | false => exact .inr (Cursor.forward_of_end hmore).2.2.2.1
  . intro c hsign hc
    rw [if_pos hsign]
    cases hmore : c.more with
    | true =>
      have := remaining_forward_lt (hc.resolve_right (by simp [hmore])) hmore
      split <;> omega
    | false =>
      have hblank : c.forward.cur = Code.blank := by
        rw [Cursor.forward, hmore]
        rfl
      rw [hblank]
      exact Nat.succ_pos _
  . intro _
    split <;> omega

theorem skipName_ends (h : s.cursor.Settled) (magicHash : Bool) :
    ((s.skipName magicHash).cursor.more && (goingOn? magicHash (s.skipName magicHash)).isSome) = false := by
  have hstep : ∀ s : Scan, (s.cursor.more && (goingOn? magicHash s).isSome) = true →
      s.cursor.more = true ∧ (goOn magicHash s).cursor = s.cursor.forward := by
    intro s hs
    obtain ⟨hmore, hsome⟩ := Bool.and_eq_true_iff.mp hs
    obtain ⟨style, hstyle⟩ := Option.isSome_iff_exists.mp hsome
    refine ⟨hmore, ?_⟩
    rw [goOn, hstyle]
    rfl
  refine @more_repeatWhile_of_invariant Scan (fun s => s.cursor.more && (goingOn? magicHash s).isSome) _
    (fun s => s.cursor.Settled) (fun s => s.cursor.remaining) ?_ ?_ _ _ h (fun _ => Nat.le_refl _)
  . intro s hs hsettled
    obtain ⟨hmore, heq⟩ := hstep s hs
    rw [heq]
    exact hsettled.forward hmore
  . intro s hs hsettled
    obtain ⟨hmore, heq⟩ := hstep s hs
    rw [heq]
    exact remaining_forward_lt hsettled hmore

theorem loopsEnd (h : s.cursor.Settled) (magicHash : Bool) : s.LoopsEnd magicHash :=
  ⟨operatorSigns_end h, skipName_ends h magicHash⟩

/--
The pass comes by all states of the colouring, with the states of the lines stored.
-/
theorem iterates_storeLines {settings : Settings} (h : Iterates (·.cursor.more) (Scan.step settings) s t) :
    Iterates (·.cursor.more) (Scan.advance settings) s.storeLines t.storeLines := by
  induction h with
  | refl s => exact .refl _
  | head hmore _ ih => exact .head ((more_storeLines _).trans hmore) ih

end Scan

/--
The pass over a span comes to its end, with the state `t`. Its bound is no restriction, and neither are those of the loops
in its steps.
-/
structure Ends (keywords : Keywords) (span : Span) (doc : Document) (t : Scan) : Prop where
  run : Iterates (·.cursor.more) (Scan.step (.read keywords doc.options)) (.ofSpan span doc) t
  pos : t.cursor.pos = Cursor.walkEnd doc span
  more : t.cursor.more = false
  colour_eq : colour keywords span doc = t.storeLines.cursor.complete
  loops : ∀ u, Iterates (·.cursor.more) (Scan.step (.read keywords doc.options)) (.ofSpan span doc) u →
    u.storeLines.LoopsEnd (Settings.read keywords doc.options).magicHash

/--
The part of the whole lines of a span up to `limit`, seen twice by the pass over them.
-/
def partOf (doc : Document) (span : Span) (limit : Nat) (whole : Bool) : View :=
  { shift := 0
    start := (doc.wholeLines span).start
    limit
    whole
    first := doc.lineOf (doc.wholeLines span).start
    last := if whole then doc.lineCount else doc.lineOf limit
    stop := Cursor.walkEnd doc span
    stop' := Cursor.walkEnd doc span
    encoding := doc.encoding
    options := doc.options }

theorem shows_partOf (hdoc : doc.WellFormed) {limit : Nat} {whole : Bool} (hstart : (doc.wholeLines span).start ≤ limit)
    (hends : if whole then doc.size = limit else 0 < limit ∧ startsLine doc.text limit = true)
    (hreach : (partOf doc span limit whole).reach ≤ Cursor.walkEnd doc span) : (partOf doc span limit whole).Shows doc doc where
  wellFormed := hdoc
  wellFormed' := hdoc
  encoding := rfl
  encoding' := rfl
  options := rfl
  options' := rfl
  lead := fun i hi => absurd hi (Nat.not_lt_zero i)
  text := fun _ _ => rfl
  ends := by
    cases whole with
    | true => exact ⟨hends, hends⟩
    | false => exact ⟨hends.1, hends.2, hends.2⟩
  start_le := hstart
  first := rfl
  last := rfl
  reach_le := hreach
  reach_le' := hreach

/--
A pass starts alike to itself if a line end can have left the style that it starts with.
-/
theorem alike_partOf {rel : Style → Pen → Pen → Prop} (hdoc : doc.WellFormed) (hloose : loose (doc.wholeLines span).style = true)
    {limit : Nat} {whole : Bool} (hstart : (doc.wholeLines span).start ≤ limit)
    (hends : if whole then doc.size = limit else 0 < limit ∧ startsLine doc.text limit = true)
    (hlt : (doc.wholeLines span).start < (partOf doc span limit whole).reach)
    (hreach : (partOf doc span limit whole).reach ≤ Cursor.walkEnd doc span)
    (hpen : ∀ style, rel style ⟨doc, (doc.wholeLines span).start⟩ ⟨doc, (doc.wholeLines span).start⟩) :
    Scan.Alike (partOf doc span limit whole) rel (.ofSpan span doc) (.ofSpan span doc) := by
  have hsettled := Cursor.settled_start doc hdoc span
  have hcursor : (Cursor.start doc span).Alike (partOf doc span limit whole) rel (Cursor.start doc span) :=
    { shows := shows_partOf hdoc hstart hends hreach
      settled := hsettled
      settled' := hsettled
      pos := rfl
      state := rfl
      pen := hpen _
      start_le := Nat.le_refl _
      le_reach := Nat.le_of_lt hlt
      stop := Cursor.stop_start doc span
      stop' := Cursor.stop_start doc span }
  have hstate : (Scan.ofSpan span doc).cursor.state = (doc.wholeLines span).style := rfl
  exact
    { near :=
        { cursor := hcursor
          memory := rfl
          pending := rfl
          first_le := hcursor.first_le
          pending_le := Nat.le_refl _
          token := by
            rw [hstate, isToken, hloose]
            rfl
          sign := by
            intro hoperator
            rw [← hstate, hoperator] at hloose
            exact absurd hloose (by decide)
          small := fun _ => Memory.extra_before_lt _ _ }
      pending := rfl
      stored := fun hpos => absurd hpos (Nat.ne_of_lt hlt) }

/--
Where a walk is not over at once, it goes up to the end of the lines, seen as one part.
-/
theorem exists_partOf_walkEnd (hdoc : doc.WellFormed) (hmore : (Cursor.start doc span).more = true) :
    ∃ limit whole, (doc.wholeLines span).start ≤ limit
      ∧ (if whole then doc.size = limit else 0 < limit ∧ startsLine doc.text limit = true)
      ∧ (doc.wholeLines span).start < (partOf doc span limit whole).reach
      ∧ (partOf doc span limit whole).reach = Cursor.walkEnd doc span ∧ limit = (doc.wholeLines span).stop := by
  have hpos : (doc.wholeLines span).start < (Cursor.start doc span).stop := of_decide_eq_true hmore
  have hle : (doc.wholeLines span).start ≤ (doc.wholeLines span).stop := Nat.le_add_right _ _
  have hbound := hdoc.isBoundary_wholeLines_stop span
  rw [Cursor.stop_start] at hpos
  by_cases hsize : (doc.wholeLines span).stop = doc.size
  . have hend : Cursor.walkEnd doc span = doc.size + 1 := by rw [Cursor.walkEnd, if_pos hsize]
    have hreach : (partOf doc span (doc.wholeLines span).stop true).reach = doc.size + 1 := by
      rw [View.reach_of_whole rfl, ← hsize]
      rfl
    exact ⟨_, true, hle, hsize.symm, by omega, by omega, rfl⟩
  . have hend : Cursor.walkEnd doc span = (doc.wholeLines span).stop := by rw [Cursor.walkEnd, if_neg hsize]
    have hreach : (partOf doc span (doc.wholeLines span).stop false).reach = (doc.wholeLines span).stop := View.reach_of_open rfl
    exact ⟨_, false, hle, ⟨by omega, hbound.resolve_right hsize⟩, by omega, by omega, rfl⟩

theorem good_ofSpan (keywords : Keywords) (hdoc : doc.WellFormed) (hloose : loose (doc.wholeLines span).style = true)
    (hmore : (Cursor.start doc span).more = true) : (pass False keywords doc.options).Good (.ofSpan span doc) := by
  obtain ⟨limit, whole, hstart, hends, hlt, hreach, _⟩ := exists_partOf_walkEnd hdoc hmore
  exact ⟨⟨_, rfl, hreach.symm, alike_partOf hdoc hloose hstart hends hlt (Nat.le_of_eq hreach) (fun _ => rfl), rfl⟩, fun _ _ => False.elim⟩

theorem settled_of_good {keywords : Keywords} {options : Options} (h : (pass False keywords options).Good s) :
    s.cursor.Settled := by
  obtain ⟨_, _, _, halike, _⟩ := h.alike
  exact halike.near.cursor.settled

/--
Each pass that starts with such a style ends.
-/
theorem exists_ends (keywords : Keywords) (hdoc : doc.WellFormed) (hloose : loose (doc.wholeLines span).style = true) :
    ∃ t, Ends keywords span doc t := by
  have hstored : (Scan.ofSpan span doc).storeLines = .ofSpan span doc := Scan.storeLines_of_pending rfl
  cases hmore : (Cursor.start doc span).more with
  | false =>
    -- A span without bytes in front of the end of the text: the pass is over at once.
    have hpos : (Cursor.start doc span).pos = Cursor.walkEnd doc span := by
      have hle := Cursor.pos_start_le_walkEnd doc span
      have hge : ¬ (Cursor.start doc span).pos < (Cursor.start doc span).stop := of_decide_eq_false hmore
      rw [Cursor.stop_start] at hge
      omega
    have hself : ∀ u, Iterates (·.cursor.more) (Scan.step (.read keywords doc.options)) (.ofSpan span doc) u → u = .ofSpan span doc := by
      intro u hrun
      cases hrun with
      | refl => rfl
      | head hmore' _ => exact absurd hmore' (ne_true_of_eq_false hmore)
    refine ⟨.ofSpan span doc, .refl _, hpos, hmore, ?_, ?_⟩
    . unfold colour
      dsimp only
      rw [hself _ (iterates_repeatWhile _ _ _ _)]
    . intro u hrun
      rw [hself u hrun, hstored]
      exact Scan.loopsEnd (Cursor.settled_start doc hdoc span) _
  | true =>
    have h : (pass False keywords doc.options).LawfulSteps := lawfulSteps_pass keywords doc.options
    have hgood := good_ofSpan keywords hdoc hloose hmore
    obtain ⟨limit, whole, hstart, hends, hlt, hreach, _⟩ := exists_partOf_walkEnd hdoc hmore
    have halike : Scan.Alike _ Pen.Equal _ _ :=
      alike_partOf hdoc hloose hstart hends hlt (Nat.le_of_eq hreach) (fun _ => rfl)
    obtain ⟨t', hrun, hend⟩ := h.ends hgood
    obtain ⟨r, _, halike', _⟩ := h.lockstep (View.closed_equal rfl) hreach.symm hgood ⟨halike, rfl⟩ hrun
    have hcursor := h.cursor_alike halike'
    have hpos : t'.cursor.pos = Cursor.walkEnd doc span := by
      have hsecond : t'.cursor.pos = r.cursor.pos + 0 := hcursor.pos
      rw [hsecond, Nat.add_zero, ← hreach]
      exact hcursor.pos_eq_reach hreach.symm hend
    obtain ⟨t, hrun', rfl⟩ := Scan.exists_iterates hrun hstored
    refine ⟨t, hrun', ?_, (Scan.more_storeLines t).symm.trans hend, colour_eq_complete rfl hgood ⟨hrun, hend⟩, ?_⟩
    . obtain ⟨pen, heq, _, _⟩ := t.exists_pen_storeLines
      rw [heq] at hpos
      exact hpos
    . intro u hrun
      have hrun' := Scan.iterates_storeLines hrun
      rw [hstored] at hrun'
      exact Scan.loopsEnd (settled_of_good (h.good_of_iterates hrun' hgood)) _

/--
A pass comes by each line start in its range, and leaves there the style and the line state of the scan that has come
there.
-/
theorem exists_lineEnd (keywords : Keywords) (hdoc : doc.WellFormed) (hloose : loose (doc.wholeLines span).style = true)
    {pos : Nat} (hpos : startsLine doc.text pos = true) (hin : (doc.wholeLines span).start < pos)
    (hle : pos ≤ (doc.wholeLines span).stop) :
    ∃ u, Iterates (·.cursor.more) (Scan.step (.read keywords doc.options)) (.ofSpan span doc) u
      ∧ loose u.cursor.state = true ∧ (colour keywords span doc).styleBefore pos = u.cursor.state
      ∧ (colour keywords span doc).lineStateAbove? (doc.lineOf pos) = some u.memory.pack := by
  have h : (pass False keywords doc.options).Forward := forward_pass keywords doc.options
  have hreach : (partOf doc span pos false).reach = pos := View.reach_of_open rfl
  have hend : pos ≤ Cursor.walkEnd doc span := by
    unfold Cursor.walkEnd
    split
    . omega
    . exact hle
  have hmore : (Cursor.start doc span).more = true := by
    apply decide_eq_true
    rw [Cursor.stop_start]
    exact Nat.lt_of_lt_of_le hin hend
  have hgood := good_ofSpan keywords hdoc hloose hmore
  have halike : (pass False keywords doc.options).alike (partOf doc span pos false) Pen.Equal (.ofSpan span doc) (.ofSpan span doc) :=
    ⟨alike_partOf hdoc hloose (Nat.le_of_lt hin) ⟨Nat.zero_lt_of_lt hin, hpos⟩ (by rwa [hreach]) (by rwa [hreach]) (fun _ => rfl),
      rfl⟩
  obtain ⟨t, _, hrun, _, halike', hat⟩ := h.exists_reach (View.closed_equal rfl) halike hgood
  have hcursor := h.cursor_alike halike'
  have hstored := (halike'.1.stored hat).1
  have hat' : t.cursor.pos = pos := hat.trans hreach
  have hline : t.cursor.line = doc.lineOf pos := hcursor.line_of_reach hat
  have hsize : t.cursor.pos ≤ t.cursor.doc.size := hat' ▸ hcursor.shows.limit_le
  have hgood' := h.good_of_iterates hrun hgood
  obtain ⟨v, hrun', hover⟩ := h.ends hgood'
  obtain ⟨hstyles, hstates⟩ := h.finish_behind hgood' (hcursor.atLineStart_of_reach hat) hstored.loose ⟨hrun', hover⟩
  have hbehind : ((pass False keywords doc.options).finish v).styleBefore t.cursor.pos
      = ((pass False keywords doc.options).finish t).styleBefore t.cursor.pos := Document.styleBefore_congr hstyles
  have hbefore : ((pass False keywords doc.options).finish t).styleBefore t.cursor.pos = t.cursor.state :=
    Pen.styleBefore_colourTo hcursor.settled.wellFormed hstored.segment_lt hsize t.cursor.state
  have hpositive := hstored.line_pos
  have hstate : ((pass False keywords doc.options).finish v).lineState (t.cursor.line - 1) = t.memory.pack := by
    rw [← hstored.lineState]
    have hlt : t.cursor.line - 1 < t.cursor.line := Nat.sub_lt hpositive Nat.one_pos
    exact congrArg (·.getD 0) ((hstates (t.cursor.line - 1) hlt).trans (Colouring.Forward.lineStates_finish t _))
  obtain ⟨u, hsteps, rfl⟩ := Scan.exists_iterates hrun (Scan.storeLines_of_pending rfl)
  obtain ⟨_, heq, _, _⟩ := u.exists_pen_storeLines
  have hmemory : u.storeLines.memory = u.memory := by rw [heq]
  have hkept : u.storeLines.cursor.state = u.cursor.state := by rw [heq]
  refine ⟨u, hsteps, hkept ▸ hstored.loose, ?_, ?_⟩
  . rw [colour_eq_complete rfl hgood ⟨hrun.trans hrun', hover⟩, ← hat', ← hkept]
    exact hbehind.trans hbefore
  . rw [colour_eq_complete rfl hgood ⟨hrun.trans hrun', hover⟩, ← hline, ← hmemory, Document.lineStateAbove?, if_pos hpositive]
    exact congrArg some hstate

/--
A pass leaves a style that the next one can start with at each line end in its range.
-/
theorem loose_styleBefore_colour (keywords : Keywords) (hdoc : doc.WellFormed) (hloose : loose (doc.wholeLines span).style = true)
    {pos : Nat} (hpos : startsLine doc.text pos = true) (hin : (doc.wholeLines span).start < pos)
    (hle : pos ≤ (doc.wholeLines span).stop) : loose ((colour keywords span doc).styleBefore pos) = true := by
  obtain ⟨u, _, hstate, hbefore, _⟩ := exists_lineEnd keywords hdoc hloose hpos hin hle
  rwa [hbefore]

/--
A pass writes the styles and the states of its lines only.
-/
theorem framed_colour (keywords : Keywords) (hdoc : doc.WellFormed) (hloose : loose (doc.wholeLines span).style = true) :
    doc.SameSource (colour keywords span doc)
      ∧ (∀ i : Nat, i < (doc.wholeLines span).start ∨ (doc.wholeLines span).stop ≤ i →
        (colour keywords span doc).styles[i]? = doc.styles[i]?)
      ∧ ∀ l : Nat, l < doc.lineOf (doc.wholeLines span).start
          ∨ (doc.wholeLines span).stop < doc.size ∧ doc.lineOf (doc.wholeLines span).stop ≤ l →
        (colour keywords span doc).lineStates[l]? = doc.lineStates[l]? := by
  cases hmore : (Cursor.start doc span).more with
  | false =>
    obtain ⟨t, hends⟩ := exists_ends keywords hdoc hloose
    have hself : t = .ofSpan span doc := by
      cases hends.run with
      | refl => rfl
      | head hmore' _ => exact absurd hmore' (ne_true_of_eq_false hmore)
    have hcolour : colour keywords span doc
        = ((⟨doc, (doc.wholeLines span).start⟩ : Pen).colourTo (doc.wholeLines span).start (doc.wholeLines span).style).doc := by
      rw [hends.colour_eq, hself, Scan.storeLines_of_pending rfl]
      rfl
    rw [hcolour]
    refine ⟨Cursor.sameSource_colourTo ⟨doc, (doc.wholeLines span).start⟩ _ _, ?_, ?_⟩
    . intro i _
      rw [Pen.getElem?_styles_colourTo, if_neg]
      dsimp only
      omega
    . intro l _
      rw [Pen.lineStates_colourTo]
  | true =>
    have h : (pass False keywords doc.options).LawfulSteps := lawfulSteps_pass keywords doc.options
    have hgood := good_ofSpan keywords hdoc hloose hmore
    obtain ⟨limit, whole, hstart, hends, hlt, hreach, rfl⟩ := exists_partOf_walkEnd hdoc hmore
    have halike : Scan.Alike _ (Pen.Same (partOf doc span (doc.wholeLines span).stop whole) doc) _ _ :=
      alike_partOf hdoc hloose hstart hends hlt (Nat.le_of_eq hreach)
        (fun _ => ⟨rfl, .refl doc, Nat.le_refl _, fun _ _ => rfl, fun _ _ => rfl, fun _ _ => rfl⟩)
    obtain ⟨t', hrun, hend⟩ := h.ends hgood
    obtain ⟨_, _, halike', _⟩ := h.lockstep (View.closed_same rfl) hreach.symm hgood ⟨halike, rfl⟩ hrun
    obtain ⟨pen, pen', hpens, _, hfinish, _⟩ := h.alike_finish (View.closed_same rfl) halike'
    obtain ⟨rfl, hframe⟩ := hpens 0
    have hcolour : colour keywords span doc = pen'.doc := (colour_eq_complete rfl hgood ⟨hrun, hend⟩).trans hfinish
    rw [hcolour]
    refine ⟨hframe.sameSource, fun i hi => hframe.styles i hi, fun l hl => hframe.lineStates l (hl.imp_right ?_)⟩
    rintro ⟨hopen, hlast⟩
    cases whole with
    | true => exact absurd hends (Nat.ne_of_gt hopen)
    | false => exact hlast

theorem styleBefore_colour_of_outside (keywords : Keywords) (hdoc : doc.WellFormed)
    (hloose : loose (doc.wholeLines span).style = true) {pos : Nat}
    (hout : pos ≤ (doc.wholeLines span).start ∨ (doc.wholeLines span).stop < pos) :
    (colour keywords span doc).styleBefore pos = doc.styleBefore pos := by
  have hframe := (framed_colour keywords hdoc hloose).2.1
  unfold Document.styleBefore
  split
  . rfl
  . next hzero =>
    have hzero : pos ≠ 0 := fun heq => hzero (beq_iff_eq.mpr heq)
    rw [Document.styleAt, Document.styleAt, hframe (pos - 1) (by omega)]

theorem loose_styleBefore_colour_of_loose (keywords : Keywords) (hdoc : doc.WellFormed)
    (hloose : loose (doc.wholeLines span).style = true) {pos : Nat} (hpos : startsLine doc.text pos = true)
    (hbefore : loose (doc.styleBefore pos) = true) : loose ((colour keywords span doc).styleBefore pos) = true := by
  by_cases hin : (doc.wholeLines span).start < pos ∧ pos ≤ (doc.wholeLines span).stop
  . exact loose_styleBefore_colour keywords hdoc hloose hpos hin.1 hin.2
  . rwa [styleBefore_colour_of_outside keywords hdoc hloose (by omega)]

theorem style_wholeLines (hdoc : doc.WellFormed) {pos : Nat} (hpos : startsLine doc.text pos = true) (length : Nat) (style : Style) :
    (doc.wholeLines ⟨pos, length, style⟩).style = style := by
  have hsize : pos ≤ doc.size := le_size_of_startsLine hpos
  unfold Document.wholeLines
  dsimp only
  rw [Nat.min_eq_left hsize, hdoc.lineStart_lineOf, lineFloor_of_startsLine hpos, beq_self_eq_true, if_pos rfl]

/--
What passes that start at some of the lines of a document, with the style in front of them, lead to, with whatever keywords
and options each of them has.
-/
inductive Passes (lines : Nat → Prop) (doc : Document) : Document → Prop where
  | refl : Passes lines doc doc
  | colour {doc' : Document} (keywords : Keywords) {pos : Nat} (length : Nat) : Passes lines doc doc' → lines pos →
    Passes lines doc (colour keywords ⟨pos, length, doc'.styleBefore pos⟩ doc')
  | setOptions {doc' : Document} (options : Options) : Passes lines doc doc' → Passes lines doc { doc' with options }

theorem Passes.loose_styleBefore {lines : Nat → Prop} (h : Passes lines doc doc') (hdoc : doc.WellFormed)
    (hlines : ∀ pos, lines pos → startsLine doc.text pos = true ∧ loose (doc.styleBefore pos) = true) :
    doc'.WellFormed ∧ ∀ pos, lines pos → startsLine doc'.text pos = true ∧ loose (doc'.styleBefore pos) = true := by
  induction h with
  | refl => exact ⟨hdoc, hlines⟩
  | @colour doc' keywords pos length _ hpos ih =>
    obtain ⟨hdoc', hlines'⟩ := ih
    have hloose : loose (doc'.wholeLines ⟨pos, length, doc'.styleBefore pos⟩).style = true := by
      rw [style_wholeLines hdoc' (hlines' pos hpos).1]
      exact (hlines' pos hpos).2
    have hsame := (framed_colour keywords hdoc' hloose).1
    refine ⟨hsame.wellFormed hdoc', ?_⟩
    intro pos' hpos'
    obtain ⟨hstart, hbefore⟩ := hlines' pos' hpos'
    refine ⟨by rwa [hsame.text], ?_⟩
    exact loose_styleBefore_colour_of_loose keywords hdoc' hloose hstart hbefore
  | setOptions options _ ih => exact ⟨⟨ih.1.lines, ih.1.styles, ih.1.lineStates, ih.1.levels⟩, ih.2⟩

/--
A pass over whole lines ends if it starts with the style of a default, string, character, block comment, pragma or
preprocessor token, whatever the text, the encoding, the keywords, the options and the line states are. At the line ends in
its range it leaves such a style again, so all later passes that start at one of these lines end, too, as do those
that start at another line with such a style in front of it.
-/
theorem passes_end (keywords : Keywords) (hdoc : doc.WellFormed) (span : Span) (hloose : loose (doc.wholeLines span).style = true) :
    let start := (doc.wholeLines span).start
    let stop := (doc.wholeLines span).stop
    let lines pos := startsLine doc.text pos = true ∧ (start < pos ∧ pos ≤ stop ∨ loose (doc.styleBefore pos) = true)
    (∃ t, Ends keywords span doc t)
      ∧ (∀ pos, startsLine doc.text pos = true → start < pos → pos ≤ stop →
        loose ((colour keywords span doc).styleAt (pos - 1)) = true)
      ∧ ∀ doc', Passes lines (colour keywords span doc) doc' → ∀ pos, lines pos → ∀ keywords length,
        ∃ t, Ends keywords ⟨pos, length, doc'.styleBefore pos⟩ doc' t := by
  intro start stop lines
  refine ⟨exists_ends keywords hdoc hloose, ?_, ?_⟩
  . intro pos hpos hin hle
    have hbefore := loose_styleBefore_colour keywords hdoc hloose hpos hin hle
    have hzero : ¬ (pos == 0) = true := by
      rw [beq_iff_eq]
      omega
    rwa [Document.styleBefore, if_neg hzero] at hbefore
  . intro doc' hpasses pos hpos keywords' length
    have hsame := (framed_colour keywords hdoc hloose).1
    have hlines : ∀ pos, lines pos →
        startsLine (colour keywords span doc).text pos = true ∧ loose ((colour keywords span doc).styleBefore pos) = true := by
      intro pos hpos
      refine ⟨by rw [hsame.text]; exact hpos.1, ?_⟩
      rcases hpos.2 with hin | hbefore
      . exact loose_styleBefore_colour keywords hdoc hloose hpos.1 hin.1 hin.2
      . exact loose_styleBefore_colour_of_loose keywords hdoc hloose hpos.1 hbefore
    obtain ⟨hdoc', hlines'⟩ := hpasses.loose_styleBefore (hsame.wellFormed hdoc) hlines
    apply exists_ends keywords' hdoc'
    rw [style_wholeLines hdoc' (hlines' pos hpos).1]
    exact (hlines' pos hpos).2

/--
The second of three lines, which starts in a block comment of depth two and ends in a string with a gap.
-/
theorem passes_end_comment_gap :
    let text := "\x7b- \x7b-\n-\x7d -\x7d \"a\\\n\\b\" c".toUTF8.data
    let doc := (Document.fresh text .utf8 .empty).setLineState 0 (Memory.pack ⟨.plain, 2⟩)
    let doc' := colour #[] ⟨6, 10, Style.commentBlock⟩ doc
    (∃ t, Ends #[] ⟨6, 10, Style.commentBlock⟩ doc t) ∧ loose (doc'.styleAt 15) = true
      ∧ ∃ t, Ends #[] ⟨16, 5, doc'.styleBefore 16⟩ doc' t := by
  intro text doc doc'
  have hdoc : doc.WellFormed := (Document.sameSource_setLineState _ _ _).wellFormed (Document.wellFormed_fresh text .utf8 .empty)
  have hloose : loose (doc.wholeLines ⟨6, 10, Style.commentBlock⟩).style = true := by decide +kernel
  have hline : startsLine doc.text 16 = true := by decide +kernel
  have hin : (doc.wholeLines ⟨6, 10, Style.commentBlock⟩).start < 16 := by decide +kernel
  have hle : 16 ≤ (doc.wholeLines ⟨6, 10, Style.commentBlock⟩).stop := by decide +kernel
  obtain ⟨hends, hstyles, hlater⟩ := passes_end #[] hdoc ⟨6, 10, Style.commentBlock⟩ hloose
  exact ⟨hends, hstyles 16 hline hin hle, hlater doc' .refl 16 ⟨hline, .inl ⟨hin, hle⟩⟩ #[] 5⟩

end Highlight.Haskell
