import Highlight.Proofs.Colouring

/-!
What a pass leaves in front of a line start depends on nothing behind it: neither do the steps behind the
line start change it, nor does the text there.
-/

namespace Highlight

open LineIndex

namespace Pen

/--
Pens that have given the same styles to the bytes from `start` on.
-/
structure Covering (start : Nat) (_ : Style) (pen pen' : Pen) : Prop where
  segment : pen'.segment = pen.segment
  styles : ∀ i : Nat, start ≤ i → i < pen.segment → pen'.doc.styles[i]? = pen.doc.styles[i]?

theorem covering_start (doc doc' : Document) (start : Nat) (style : Style) : Covering start style ⟨doc, start⟩ ⟨doc', start⟩ :=
  ⟨rfl, fun _ hi hlt => absurd hlt (Nat.not_lt_of_le hi)⟩

/--
Pens that have given the same styles to the bytes from `start` on, and the same states to the lines in front of
`line`.
-/
structure Tracing (start line : Nat) (style : Style) (pen pen' : Pen) : Prop extends Covering start style pen pen' where
  lineStates : ∀ l : Nat, l < line → pen'.doc.lineStates[l]? = pen.doc.lineStates[l]?

/--
The same pen, behind `pos`. If it colours the open token up to there, it leaves the styles in front of `pos`
that `base` has, and so it does with the states of the lines in front of `line`.
-/
structure Holding (loose : Style → Bool) (pos line : Nat) (base : Document) (style : Style) (pen pen' : Pen) : Prop where
  same : pen' = pen
  pos_le : pos ≤ pen.doc.size
  passed : loose style = false → pos ≤ pen.segment
  styles : ∀ i : Nat, i < pos → (pen.colourTo pos style).doc.styles[i]? = base.styles[i]?
  lineStates : ∀ l : Nat, l < line → pen.doc.lineStates[l]? = base.lineStates[l]?

/--
Colouring on from `pos` does not change what is in front of it.
-/
theorem getElem?_colourTo_behind (pen : Pen) {pos pos' i : Nat} (hpos : pos ≤ pos') (hi : i < pos) (style : Style) :
    (pen.colourTo pos' style).doc.styles[i]? = (pen.colourTo pos style).doc.styles[i]? := by
  rw [getElem?_styles_colourTo, getElem?_styles_colourTo]
  by_cases hin : pen.segment ≤ i ∧ i < min pos' pen.doc.size
  . rw [if_pos hin, if_pos (by omega)]
  . rw [if_neg hin, if_neg (by omega)]

theorem getElem?_colourTo_of_le (pen : Pen) {i : Nat} (hi : i < pen.segment) (pos : Nat) (style : Style) :
    (pen.colourTo pos style).doc.styles[i]? = pen.doc.styles[i]? := by
  rw [getElem?_styles_colourTo, if_neg (by omega)]

end Pen

namespace View

variable {v : View} {loose : Style → Bool} {base : Document}

theorem closed_covering (hshift : v.shift = 0) : v.Closed loose (Pen.Covering v.start) where
  colourTo := by
    intro style pen pen' style' pos hshow hstart hreach h
    have hmin := hshow.min_size hreach
    have hsegment := h.segment
    rw [hshift, Nat.add_zero, Nat.add_zero] at hmin
    rw [hshift, Nat.add_zero]
    constructor
    . rw [Pen.segment_colourTo, Pen.segment_colourTo, hmin, hsegment]
    . intro i hi hlt
      rw [Pen.segment_colourTo] at hlt
      rw [Pen.getElem?_styles_colourTo, Pen.getElem?_styles_colourTo, hmin, hsegment]
      by_cases hin : pen.segment ≤ i ∧ i < min pos pen.doc.size
      . rw [if_pos hin, if_pos hin, Array.getElem?_eq_getElem (by rw [hshow.wellFormed'.styles]; omega),
          Array.getElem?_eq_getElem (by rw [hshow.wellFormed.styles]; omega)]
        rfl
      . rw [if_neg hin, if_neg hin]
        exact h.styles i hi (by omega)
  restyle := fun _ _ h => ⟨h.segment, h.styles⟩
  segment := by
    intro style pen pen' _ h
    rw [hshift]
    exact h.segment
  setLineState := fun _ _ _ _ h => ⟨h.segment, h.styles⟩
  setLevel := fun _ _ _ _ h => ⟨h.segment, h.styles⟩

theorem closed_tracing (hshift : v.shift = 0) (line : Nat) : v.Closed loose (Pen.Tracing v.start line) where
  colourTo := by
    intro style pen pen' style' pos hshow hstart hreach h
    refine ⟨(closed_covering hshift : v.Closed loose _).colourTo style' hshow hstart hreach h.toCovering, ?_⟩
    rw [Pen.lineStates_colourTo, Pen.lineStates_colourTo]
    exact h.lineStates
  restyle := fun _ _ h => ⟨⟨h.segment, h.styles⟩, h.lineStates⟩
  segment := by
    intro style pen pen' _ h
    rw [hshift]
    exact h.segment
  setLineState := by
    intro style pen pen' line' state _ _ _ h
    refine ⟨⟨h.segment, h.styles⟩, fun l hl => ?_⟩
    show (pen'.doc.setLineState (line' + v.shift) state).lineStates[l]? = (pen.doc.setLineState line' state).lineStates[l]?
    rw [hshift, Nat.add_zero, Document.getElem?_setLineState, Document.getElem?_setLineState, h.lineStates l hl]
  setLevel := fun _ _ _ _ h => ⟨⟨h.segment, h.styles⟩, h.lineStates⟩

theorem closed_holding (hshift : v.shift = 0) : v.Closed loose (Pen.Holding loose v.start v.first base) where
  colourTo := by
    rintro style _ pen style' pos hshow hstart hreach ⟨rfl, hsize, hpassed, hstyles, hstates⟩
    rw [hshift, Nat.add_zero]
    have hsegment : v.start ≤ (pen.colourTo pos style).segment := by
      rw [Pen.segment_colourTo]
      omega
    refine ⟨rfl, ?_, fun _ => hsegment, ?_, ?_⟩
    . rw [(Cursor.sameSource_colourTo pen pos style).size]
      exact hsize
    . intro i hi
      rw [Pen.getElem?_colourTo_of_le _ (by omega), Pen.getElem?_colourTo_behind pen hstart hi]
      exact hstyles i hi
    . rw [Pen.lineStates_colourTo]
      exact hstates
  restyle := by
    -- A token that can change its style has begun behind the line start.
    rintro style _ pen style' hloose ⟨rfl, hsize, hpassed, hstyles, hstates⟩
    refine ⟨rfl, hsize, fun _ => hpassed hloose, ?_, hstates⟩
    intro i hi
    have := hpassed hloose
    rw [← hstyles i hi, Pen.getElem?_colourTo_of_le _ (by omega), Pen.getElem?_colourTo_of_le _ (by omega)]
  segment := by
    rintro style _ pen _ ⟨rfl, _, _, _, _⟩
    rw [hshift, Nat.add_zero]
  setLineState := by
    rintro style _ pen line state hshow hfirst hlast ⟨rfl, hsize, hpassed, hstyles, hstates⟩
    rw [hshift, Nat.add_zero]
    refine ⟨rfl, hsize, hpassed, ?_, ?_⟩
    . intro i hi
      rw [← Pen.setLineState_colourTo]
      exact hstyles i hi
    . intro l hl
      show (pen.doc.setLineState line state).lineStates[l]? = base.lineStates[l]?
      rw [Document.getElem?_setLineState, if_neg (by omega)]
      exact hstates l hl
  setLevel := by
    rintro style _ pen line level hshow hfirst hlast ⟨rfl, hsize, hpassed, hstyles, hstates⟩
    rw [hshift, Nat.add_zero]
    refine ⟨rfl, hsize, hpassed, ?_, hstates⟩
    intro i hi
    rw [← Pen.setLevel_colourTo]
    exact hstyles i hi

end View

namespace Colouring

variable {σ : Type} {m : Colouring σ} {storing : Prop} {v : View} {rel : Style → Pen → Pen → Prop} {doc doc' : Document}
  {s s' t t' : σ}

/--
What makes a pass one that never goes back: where it comes by a line start, the open token can no longer change what
is in front of it.
-/
structure Forward (m : Colouring σ) : Prop extends m.LawfulPass where
  loose_of_reach : ∀ {v rel s s'}, m.alike v rel s s' → (m.cursor s).pos = v.reach → m.loose (m.cursor s).state = true
  alike_behind : ∀ {v rel rel' s s'}, m.alike v rel s s' → (m.cursor s).pos < v.reach → (m.cursor s).atLineStart = true →
    rel' (m.cursor s).state (m.cursor s).pen (m.cursor s').pen → m.alike (v.behind (m.cursor s).doc (m.cursor s).pos) rel' s s'

/--
What makes a pass one that depends on nothing but the text in front of it. Only if it is `storing` it goes
by line states, and then it stores one for each line.
-/
structure Local (m : Colouring σ) (storing : Prop) : Prop extends m.Lawful, m.Forward where
  lineStates_of_alike : storing → ∀ {v rel s s'}, v.shift = 0 → m.alike v rel s s' →
    ∀ l : Nat, v.first ≤ l → l < (m.cursor s).line → (m.cursor s').doc.lineStates[l]? = (m.cursor s).doc.lineStates[l]?
  goesOn_of_front : ∀ {doc doc' pos}, (∀ i : Nat, i < pos → doc'.text[i]? = doc.text[i]?) → doc'.lineOf pos = doc.lineOf pos →
    (∀ i : Nat, i < pos → doc'.styles[i]? = doc.styles[i]?) →
    (storing → ∀ l : Nat, l < doc.lineOf pos → doc'.lineStates[l]? = doc.lineStates[l]?) → m.goesOn doc pos doc' pos

/--
Two alike passes come to the end of the part that they have in common.
-/
theorem LawfulSteps.exists_reach (h : m.LawfulSteps) (hrel : v.Closed m.loose rel) (halike : m.alike v rel s s')
    (hgood : m.Good s) :
    ∃ t t', Iterates m.more m.step s t ∧ Iterates m.more m.step s' t' ∧ m.alike v rel t t' ∧ (m.cursor t).pos = v.reach := by
  induction hrank : m.rank s using Nat.strongRecOn generalizing s s' with
  | ind rank ih =>
    have hcursor := h.cursor_alike halike
    by_cases hin : (m.cursor s).pos < v.reach
    . have hmore : m.more s = true := hcursor.more hin
      have hmore' : m.more s' = true := hcursor.more' hin
      have hlt := h.rank_step_lt hmore hgood
      obtain ⟨t, t', hrun, hrun', hend⟩ :=
        ih _ (hrank ▸ hlt) (h.alike_step hrel hgood.storable_self hin halike) (h.good_step hmore hgood) rfl
      exact ⟨t, t', .head hmore hrun, .head hmore' hrun', hend⟩
    . have := hcursor.le_reach
      exact ⟨s, s', .refl s, .refl s', halike, by omega⟩

namespace Forward

/--
What stands in front of a line start that a pass comes by, it leaves there.
-/
theorem finish_behind (h : m.Forward) (hgood : m.Good s) (hstart : (m.cursor s).atLineStart = true)
    (hloose : m.loose (m.cursor s).state = true) (hends : m.Ends s t) :
    (∀ i : Nat, i < (m.cursor s).pos → (m.finish t).styles[i]? = (m.finish s).styles[i]?)
      ∧ ∀ l : Nat, l < (m.cursor s).line → (m.finish t).lineStates[l]? = (m.finish s).lineStates[l]? := by
  obtain ⟨hrun, hend⟩ := hends
  cases hmore : m.more s with
  | false =>
    obtain rfl := (Iterates.refl s).end_unique hmore hrun hend
    exact ⟨fun _ _ => rfl, fun _ _ => rfl⟩
  | true =>
    obtain ⟨v, hshift, hstop, halike⟩ := hgood.alike
    have hcursor := h.cursor_alike halike
    have hin : (m.cursor s).pos < v.reach := (hcursor.more'_iff (by omega)).mp hmore
    have hsize := hcursor.settled.pos_le hmore
    have hline : (m.cursor s).doc.lineOf (m.cursor s).pos = (m.cursor s).line := by
      rw [hcursor.settled.line, if_neg (by omega), Nat.add_zero]
    generalize hw : v.behind (m.cursor s).doc (m.cursor s).pos = w
    have hwstart : w.start = (m.cursor s).pos := by rw [← hw]; rfl
    have hwfirst : w.first = (m.cursor s).line := by rw [← hw, ← hline]; rfl
    have hwshift : w.shift = 0 := by rw [← hw]; exact hshift
    have hwstop : w.stop' = w.reach := by rw [← hw]; exact hstop
    have hhold : Pen.Holding m.loose w.start w.first (m.finish s) (m.cursor s).state (m.cursor s).pen (m.cursor s).pen := by
      refine ⟨rfl, ?_, ?_, ?_, ?_⟩
      . rw [hwstart]
        exact hsize
      . rw [hloose]
        exact nofun
      . rw [m.finish_eq, hwstart]
        exact fun _ _ => rfl
      . intro l _
        rw [m.finish_eq]
        show _ = ((m.cursor s).pen.colourTo (m.cursor s).pos (m.cursor s).state).doc.lineStates[l]?
        rw [Pen.lineStates_colourTo]
    have hbehind := h.alike_behind halike hin hstart hhold
    rw [hw] at hbehind
    have hclosed : w.Closed m.loose (Pen.Holding m.loose w.start w.first (m.finish s)) := View.closed_holding hwshift
    -- All along the rest of the pass the pen holds what is in front of the line start.
    have hkept := hrun.invariant (fun u => m.alike w (Pen.Holding m.loose w.start w.first (m.finish s)) u u ∧ m.Good u) (by
      intro u hmore ⟨hu, hgood⟩
      have hin := ((h.cursor_alike hu).more'_iff (by omega)).mp hmore
      exact ⟨h.alike_step hclosed hgood.storable_self hin hu, h.good_step hmore hgood⟩) ⟨hbehind, hgood⟩
    have hpen := (h.cursor_alike hkept.1).pen
    have hpos := (h.cursor_alike hkept.1).start_le
    rw [m.finish_eq t]
    constructor
    . intro i hi
      rw [← hwstart] at hi
      rw [← hpen.styles i hi]
      exact Pen.getElem?_colourTo_behind _ hpos hi _
    . intro l hl
      rw [← hpen.lineStates l (by omega)]
      show ((m.cursor t).pen.colourTo (m.cursor t).pos (m.cursor t).state).doc.lineStates[l]? = _
      rw [Pen.lineStates_colourTo]

/--
Two passes that begin alike come to the end of the part that they have in common, and do not change behind it what
they leave there.
-/
theorem exists_front (h : m.Forward) (hrel : v.Closed m.loose rel) {stop stop' : Nat} (hbegins : v.Begins doc doc' stop stop')
    (hgoes : m.goesOn doc v.start doc' (v.start + v.shift)) (hgood : m.Good (m.start doc v.start stop))
    (hgood' : m.Good (m.start doc' (v.start + v.shift) stop'))
    (hpens : ∀ style, rel style ⟨doc, v.start⟩ ⟨doc', v.start + v.shift⟩) :
    ∃ t t', m.alike v rel t t' ∧ (m.cursor t).pos = v.reach
      ∧ (∀ i : Nat, i < v.limit → (m.colour doc v.start stop).styles[i]? = (m.finish t).styles[i]?)
      ∧ (∀ i : Nat, i < v.limit + v.shift → (m.colour doc' (v.start + v.shift) stop').styles[i]? = (m.finish t').styles[i]?)
      ∧ (∀ l : Nat, l < v.last → (m.colour doc v.start stop).lineStates[l]? = (m.finish t).lineStates[l]?)
      ∧ ∀ l : Nat, l < v.last + v.shift →
        (m.colour doc' (v.start + v.shift) stop').lineStates[l]? = (m.finish t').lineStates[l]? := by
  have halike := h.alike_start hrel hbegins hgoes hgood hpens
  obtain ⟨t, t', hrun, hrun', halike, hpos⟩ := h.exists_reach hrel halike hgood
  have hcursor := h.cursor_alike halike
  have hgood_t := h.good_of_iterates hrun hgood
  have hgood_t' := h.good_of_iterates hrun' hgood'
  have hstart := hcursor.atLineStart_of_reach hpos
  have hat := hcursor.pos
  have hpos' : (m.cursor t').pos = v.second.reach := by
    rw [v.reach_second]
    omega
  have hstart' := (h.cursor_alike (h.alike_second halike)).atLineStart_of_reach hpos'
  obtain ⟨u, hrest, hend⟩ := h.ends hgood_t
  obtain ⟨u', hrest', hend'⟩ := h.ends hgood_t'
  have hloose := h.loose_of_reach halike hpos
  obtain ⟨hstyles, hstates⟩ := h.finish_behind hgood_t hstart hloose ⟨hrest, hend⟩
  obtain ⟨hstyles', hstates'⟩ := h.finish_behind hgood_t' hstart' (hcursor.state ▸ hloose) ⟨hrest', hend'⟩
  have hreach := v.limit_le_reach
  have hline := hcursor.line_of_reach hpos
  have hline' := hcursor.line
  rw [h.colour_eq hbegins.shows.wellFormed hbegins.startsLine hbegins.lt_stop hbegins.boundary hgood ⟨hrun.trans hrest, hend⟩,
    h.colour_eq hbegins.shows.wellFormed' hbegins.startsLine' hbegins.lt_stop' hbegins.boundary' hgood'
      ⟨hrun'.trans hrest', hend'⟩]
  exact ⟨t, t', halike, hpos, fun i hi => hstyles i (by omega), fun i hi => hstyles' i (by omega),
    fun l hl => hstates l (by omega), fun l hl => hstates' l (by omega)⟩

/--
What two alike scans have covered, and the rest of the part that their open token covers, they leave with the same
styles.
-/
theorem styles_finish (h : m.Forward) (hshift : v.shift = 0) (halike : m.alike v rel t t')
    (hpens : Pen.Covering v.start (m.cursor t).state (m.cursor t).pen (m.cursor t').pen) (hpos : (m.cursor t).pos = v.reach) {i : Nat} (hstart : v.start ≤ i) (hi : i < v.limit) :
    (m.finish t').styles[i]? = (m.finish t).styles[i]? := by
  have hcursor := h.cursor_alike halike
  have hreach := v.limit_le_reach
  have hlimit := hcursor.shows.limit_le
  rw [Cursor.doc] at hlimit
  have hpen := (View.closed_covering hshift : v.Closed m.loose _).colourTo (m.cursor t).state hcursor.shows hcursor.start_le
    hcursor.le_reach hpens
  rw [m.finish_eq, m.finish_eq]
  show ((m.cursor t').pen.colourTo _ _).doc.styles[i]? = ((m.cursor t).pen.colourTo _ _).doc.styles[i]?
  rw [hcursor.pos, hcursor.state]
  refine hpen.styles i hstart ?_
  rw [Pen.segment_colourTo]
  omega

theorem lineStates_finish (t : σ) (l : Nat) : (m.finish t).lineStates[l]? = (m.cursor t).doc.lineStates[l]? := by
  rw [m.finish_eq]
  show ((m.cursor t).pen.colourTo _ _).doc.lineStates[l]? = _
  rw [Pen.lineStates_colourTo]
  rfl

end Forward

namespace Local

/--
Two passes that begin alike at a line start leave the same in the part that they have in common.
-/
theorem agree (h : m.Local storing) (hshift : v.shift = 0) {stop stop' : Nat} (hbegins : v.Begins doc doc' stop stop')
    (hgoes : m.goesOn doc v.start doc' (v.start + v.shift)) (hgood : m.Good (m.start doc v.start stop))
    (hgood' : m.Good (m.start doc' (v.start + v.shift) stop')) :
    (∀ i : Nat, v.start ≤ i → i < v.limit →
        (m.colour doc' (v.start + v.shift) stop').styles[i]? = (m.colour doc v.start stop).styles[i]?)
      ∧ (storing → ∀ l : Nat, v.first ≤ l → l < v.last →
        (m.colour doc' (v.start + v.shift) stop').lineStates[l]? = (m.colour doc v.start stop).lineStates[l]?) := by
  obtain ⟨t, t', halike, hpos, hstyles, hstyles', hstates, hstates'⟩ :=
    h.exists_front (View.closed_covering hshift) hbegins hgoes hgood hgood' (by
      intro style
      refine ⟨by rw [hshift]; rfl, ?_⟩
      intro i hi hlt
      exact absurd hlt (Nat.not_lt_of_le hi))
  constructor
  . intro i hi hlt
    rw [hstyles i hlt, hstyles' i (by omega), h.styles_finish hshift halike (h.cursor_alike halike).pen hpos hi hlt]
  . intro hstoring l hl hlt
    have hline := (h.cursor_alike halike).line_of_reach hpos
    rw [hstates l hlt, hstates' l (by omega), Forward.lineStates_finish, Forward.lineStates_finish]
    exact h.lineStates_of_alike hstoring hshift halike l hl (by omega)

end Local

namespace Forward

/--
Where the lines have the same states before two passes, they have the same behind them.
-/
theorem agree (h : m.Forward) (hshift : v.shift = 0) {stop stop' : Nat} (hbegins : v.Begins doc doc' stop stop')
    (hgoes : m.goesOn doc v.start doc' (v.start + v.shift)) (hgood : m.Good (m.start doc v.start stop))
    (hgood' : m.Good (m.start doc' (v.start + v.shift) stop'))
    (hlines : ∀ l : Nat, l < v.last → doc'.lineStates[l]? = doc.lineStates[l]?) :
    (∀ i : Nat, v.start ≤ i → i < v.limit →
        (m.colour doc' (v.start + v.shift) stop').styles[i]? = (m.colour doc v.start stop).styles[i]?)
      ∧ ∀ l : Nat, l < v.last →
        (m.colour doc' (v.start + v.shift) stop').lineStates[l]? = (m.colour doc v.start stop).lineStates[l]? := by
  obtain ⟨t, t', halike, hpos, hstyles, hstyles', hstates, hstates'⟩ :=
    h.exists_front (View.closed_tracing hshift v.last) hbegins hgoes hgood hgood' (by
      intro style
      refine ⟨⟨by rw [hshift]; rfl, ?_⟩, hlines⟩
      intro i hi hlt
      exact absurd hlt (Nat.not_lt_of_le hi))
  have hpen := (h.cursor_alike halike).pen
  constructor
  . intro i hi hlt
    rw [hstyles i hlt, hstyles' i (by omega), h.styles_finish hshift halike hpen.toCovering hpos hi hlt]
  . intro l hlt
    rw [hstates l hlt, hstates' l (by omega), lineStates_finish, lineStates_finish]
    exact hpen.lineStates l hlt

end Forward

end Colouring

end Highlight
