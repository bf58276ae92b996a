import Highlight.Proofs.Cursor.PenRelation
import Highlight.Proofs.Iteration

/-!
Passes that can be interrupted at every line start: what a language has to fulfil for that, and why
then a pass over a range is the same as two passes over its parts, and as two passes over all of it.
-/

namespace Highlight

open LineIndex

/--
A pass taken apart into its steps. Two scans are `alike` if all that the steps depend on is the same in
both as far as a view shows it, and `goesOn` says the same of what is looked up in front of the line
starts at which two passes begin.
-/
structure Colouring (σ : Type) where
  /-- The pass over the whole lines from a line start on. -/
  colour : Document → Nat → Nat → Document
  start : Document → Nat → Nat → σ
  cursor : σ → Cursor
  step : σ → σ
  /-- The styles that a token can carry over a line start. -/
  loose : Style → Bool
  goesOn : Document → Nat → Document → Nat → Prop
  alike : View → (Style → Pen → Pen → Prop) → σ → σ → Prop
  /-- What has to hold of a scan so that the line states can keep it. -/
  Storable : σ → Prop
  /-- What each step lowers. -/
  rank : σ → Nat

namespace Colouring

variable {σ : Type}

def more (m : Colouring σ) (s : σ) : Bool :=
  (m.cursor s).more

/--
The document that a pass leaves which ends with the scan `s`.
-/
def finish (m : Colouring σ) (s : σ) : Document :=
  (m.cursor s).complete

theorem finish_eq (m : Colouring σ) (s : σ) : m.finish s = (m.cursor s).complete := rfl

/--
The scan `t` is where a pass ends that goes on from the scan `s`.
-/
def Ends (m : Colouring σ) (s t : σ) : Prop :=
  Iterates m.more m.step s t ∧ m.more t = false

/--
A scan of a pass all of whose scans can be kept in line states.
-/
structure Good (m : Colouring σ) (s : σ) : Prop where
  alike : ∃ v : View, v.shift = 0 ∧ v.stop' = v.reach ∧ m.alike v Pen.Equal s s
  storable : ∀ t, Iterates m.more m.step s t → m.Storable t

/--
What makes the steps of a pass depend on nothing but what `alike` says, and end.
-/
structure LawfulSteps (m : Colouring σ) : Prop where
  cursor_alike : ∀ {v rel s s'}, m.alike v rel s s' → (m.cursor s).Alike v rel (m.cursor s')
  alike_second : ∀ {v rel s s'}, m.alike v rel s s' → m.alike v.second Pen.Equal s' s'
  storable_alike : ∀ {v rel s s'}, m.alike v rel s s' → m.Storable s → m.Storable s'
  alike_step : ∀ {v rel s s'}, v.Closed m.loose rel → m.Storable s → (m.cursor s).pos < v.reach → m.alike v rel s s' →
    m.alike v rel (m.step s) (m.step s')
  rank_step : ∀ {v s}, v.shift = 0 → m.Storable s → (m.cursor s).pos < v.reach → m.alike v Pen.Equal s s →
    m.rank (m.step s) < m.rank s

/--
What makes a pass one that depends on its lines and on what is looked up in front of them. It leaves no byte of
them out.
-/
structure LawfulPass (m : Colouring σ) : Prop extends LawfulSteps m where
  colour_eq : ∀ {doc start stop t}, doc.WellFormed → startsLine doc.text start = true → start < stop → IsBoundary doc.text stop →
    m.Good (m.start doc start stop) → m.Ends (m.start doc start stop) t → m.colour doc start stop = m.finish t
  goesOn_of_agree : ∀ {doc doc' start}, doc.WellFormed → doc.SameSource doc' →
    (∀ i : Nat, i < start → doc'.styles[i]? = doc.styles[i]?) →
    (∀ l : Nat, l < doc.lineOf start → doc'.lineStates[l]? = doc.lineStates[l]?) →
    (∀ l : Nat, l < doc.lineOf start → doc'.levels[l]? = doc.levels[l]?) → m.goesOn doc start doc' start
  alike_start : ∀ {v rel doc doc' stop stop'}, v.Closed m.loose rel → v.Begins doc doc' stop stop' →
    m.goesOn doc v.start doc' (v.start + v.shift) → m.Good (m.start doc v.start stop) →
    (∀ style, rel style ⟨doc, v.start⟩ ⟨doc', v.start + v.shift⟩) →
    m.alike v rel (m.start doc v.start stop) (m.start doc' (v.start + v.shift) stop')

/--
What makes a pass one that can be interrupted.
-/
structure Lawful (m : Colouring σ) : Prop extends LawfulPass m where
  /-- Where a pass comes by a line start, one that begins there goes on from the same. -/
  resume : ∀ {v base s t stop}, m.Storable s → v.shift = 0 → v.whole = false → v.stop' = v.reach → v.start < v.limit →
    m.alike v (Pen.Same v base) s t → m.more t = false → v.limit < stop →
    IsBoundary base.text stop → (m.cursor s).stop = base.cursorStop stop →
    ∃ opened, m.alike (.ofRange (m.finish t) v.limit stop stop) (Pen.Late m.loose v.limit opened) s
      (m.start (m.finish t) v.limit stop)

variable {m : Colouring σ} {doc : Document}

theorem Good.storable_self {s : σ} (h : m.Good s) : m.Storable s :=
  h.storable s (.refl s)

namespace LawfulSteps

theorem good_step (h : m.LawfulSteps) {s : σ} (hmore : m.more s = true) (hs : m.Good s) : m.Good (m.step s) := by
  obtain ⟨⟨v, hshift, hstop, halike⟩, hstorable⟩ := hs
  have hin := ((h.cursor_alike halike).more'_iff (by omega)).mp hmore
  have hself := hstorable s (.refl s)
  exact ⟨⟨v, hshift, hstop, h.alike_step (View.closed_equal hshift) hself hin halike⟩,
    fun t hrun => hstorable t (.head hmore hrun)⟩

theorem good_of_iterates (h : m.LawfulSteps) {s t : σ} (hrun : Iterates m.more m.step s t) (hs : m.Good s) : m.Good t :=
  hrun.invariant m.Good (fun _ hmore => h.good_step hmore) hs

theorem rank_step_lt (h : m.LawfulSteps) {s : σ} (hmore : m.more s = true) (hs : m.Good s) :
    m.rank (m.step s) < m.rank s := by
  obtain ⟨⟨v, hshift, hstop, halike⟩, hstorable⟩ := hs
  have hin := ((h.cursor_alike halike).more'_iff (by omega)).mp hmore
  exact h.rank_step hshift (hstorable s (.refl s)) hin halike

/--
A bound that is not below the rank is no restriction.
-/
theorem ends_repeatWhile (h : m.LawfulSteps) {s : σ} (hs : m.Good s) {bound : Nat}
    (hbound : m.more s = true → m.rank s ≤ bound) : m.Ends s (repeatWhile m.more m.step bound s) :=
  ⟨iterates_repeatWhile _ _ _ _,
    more_repeatWhile_of_invariant m.Good m.rank (fun _ => h.good_step) (fun _ => h.rank_step_lt) bound hs hbound⟩

theorem ends (h : m.LawfulSteps) {s : σ} (hs : m.Good s) : ∃ t, m.Ends s t :=
  ⟨_, h.ends_repeatWhile hs (fun _ => Nat.le_refl (m.rank s))⟩

/--
Two alike passes stay alike up to the end of the second one, which is confined to the part.
-/
theorem lockstep (h : m.LawfulSteps) {v : View} {rel : Style → Pen → Pen → Prop} {s s' t' : σ} (hrel : v.Closed m.loose rel)
    (hstop : v.stop' = v.reach + v.shift) (hs : m.Good s) (halike : m.alike v rel s s')
    (hrun : Iterates m.more m.step s' t') : ∃ t, Iterates m.more m.step s t ∧ m.alike v rel t t' ∧ m.Good t := by
  refine hrun.lockstep (R := fun s s' => m.alike v rel s s' ∧ m.Good s) ?_ ?_ ⟨halike, hs⟩
  . intro s s' hR hmore
    have hcursor := h.cursor_alike hR.1
    exact hcursor.more ((hcursor.more'_iff hstop).mp hmore)
  . intro s s' hR hmore
    have hcursor := h.cursor_alike hR.1
    have hin := (hcursor.more'_iff hstop).mp hmore
    exact ⟨h.alike_step hrel hR.2.storable_self hin hR.1, h.good_step (hcursor.more hin) hR.2⟩

/--
A pass that is alike to a good one, as far as it goes, is good.
-/
theorem good_alike (h : m.LawfulSteps) {v : View} {rel : Style → Pen → Pen → Prop} {s s' : σ} (hrel : v.Closed m.loose rel)
    (hstop : v.stop' = v.reach + v.shift) (halike : m.alike v rel s s') (hs : m.Good s) : m.Good s' := by
  refine ⟨⟨v.second, rfl, hstop.trans v.reach_second.symm, h.alike_second halike⟩, ?_⟩
  intro t' hrun
  obtain ⟨t, _, halike', hgood⟩ := h.lockstep hrel hstop hs halike hrun
  exact h.storable_alike halike' hgood.storable_self

/--
Passes over the same range end at once.
-/
theorem more_eq_false (h : m.LawfulSteps) {v : View} {rel : Style → Pen → Pen → Prop} {s s' : σ}
    (hstop : v.stop = v.reach) (hstop' : v.stop' = v.reach + v.shift) (halike : m.alike v rel s s')
    (hend : m.more s' = false) : m.more s = false := by
  have hcursor := h.cursor_alike halike
  have hpos := hcursor.pos_eq_reach hstop' hend
  rw [more, Cursor.more, hcursor.stop, hpos, hstop]
  simp

/--
The pens behind the last token, which no longer depend on its style.
-/
theorem alike_finish (h : m.LawfulSteps) {v : View} {rel : Style → Pen → Pen → Prop} {s s' : σ} (hrel : v.Closed m.loose rel)
    (halike : m.alike v rel s s') : ∃ pen pen', (∀ style, rel style pen pen') ∧ m.finish s = pen.doc ∧ m.finish s' = pen'.doc
      ∧ min (m.cursor s).pos (m.cursor s).doc.size ≤ pen.segment :=
  ⟨_, _, fun style => ((h.cursor_alike halike).setState hrel style).pen, rfl, rfl, Pen.le_segment_colourTo _ _ _⟩

end LawfulSteps

namespace LawfulPass

theorem stop_ofRange (doc : Document) (start stop : Nat) :
    (View.ofRange doc start stop stop).stop = (View.ofRange doc start stop stop).reach := by
  simp [View.reach, View.ofRange, Document.cursorStop]

theorem goesOn_refl (h : m.LawfulPass) (hdoc : doc.WellFormed) (start : Nat) : m.goesOn doc start doc start :=
  h.goesOn_of_agree hdoc (.refl doc) (fun _ _ => rfl) (fun _ _ => rfl) (fun _ _ => rfl)

/--
A pass over a part of the range of another one starts alike.
-/
theorem alike_part (h : m.LawfulPass) (hdoc : doc.WellFormed) {start mid stop : Nat} (hstart : startsLine doc.text start = true)
    (hlt : start < mid) (hmid : IsBoundary doc.text mid) (hle : mid ≤ stop) (hstop : IsBoundary doc.text stop)
    (hgood : m.Good (m.start doc start stop)) :
    m.alike (.ofRange doc start mid stop) (Pen.Same (.ofRange doc start mid stop) doc) (m.start doc start stop)
      (m.start doc start mid) := by
  have hbegins := View.Begins.ofRange hdoc (.refl doc) hstart hlt hmid hle hstop
  exact h.alike_start (View.closed_same rfl) hbegins (h.goesOn_refl hdoc start) hgood (Pen.same_start doc start mid stop)

theorem good_part (h : m.LawfulPass) (hdoc : doc.WellFormed) {start mid stop : Nat} (hstart : startsLine doc.text start = true)
    (hlt : start < mid) (hmid : IsBoundary doc.text mid) (hle : mid ≤ stop) (hstop : IsBoundary doc.text stop)
    (hgood : m.Good (m.start doc start stop)) : m.Good (m.start doc start mid) :=
  h.good_alike (View.closed_same rfl) rfl (h.alike_part hdoc hstart hlt hmid hle hstop hgood) hgood

/--
Passes over the same range start alike in two documents that differ only in what the pass writes anew.
-/
theorem alike_over (h : m.LawfulPass) {rel : Style → Pen → Pen → Prop} {doc' : Document} (hdoc : doc.WellFormed) {start stop : Nat}
    (hstart : startsLine doc.text start = true) (hlt : start < stop) (hstop : IsBoundary doc.text stop)
    (hsame : doc.SameSource doc') (hrel : (View.ofRange doc start stop stop).Closed m.loose rel)
    (hpens : ∀ style, rel style ⟨doc, start⟩ ⟨doc', start⟩) (hgoes : m.goesOn doc start doc' start)
    (hgood : m.Good (m.start doc start stop)) :
    m.alike (.ofRange doc start stop stop) rel (m.start doc start stop) (m.start doc' start stop) :=
  h.alike_start hrel (.ofRange hdoc hsame hstart hlt hstop (Nat.le_refl stop) hstop) hgoes hgood hpens

theorem good_over (h : m.LawfulPass) {doc' : Document} (hdoc : doc.WellFormed) {start stop : Nat}
    (hstart : startsLine doc.text start = true) (hlt : start < stop) (hstop : IsBoundary doc.text stop)
    (hsame : doc.SameSource doc') (hgoes : m.goesOn doc start doc' start) (hgood : m.Good (m.start doc start stop)) :
    m.Good (m.start doc' start stop) :=
  h.good_alike View.closed_overlaid rfl (h.alike_over hdoc hstart hlt hstop hsame View.closed_overlaid
    (Pen.overlaid_start doc doc' start) hgoes hgood) hgood

/--
What passes over the same range leave in two documents that differ only in what the pass writes anew. They have
coloured the whole range.
-/
theorem colour_over (h : m.LawfulPass) {rel : Style → Pen → Pen → Prop} {doc' : Document} (hdoc : doc.WellFormed) {start stop : Nat}
    (hstart : startsLine doc.text start = true) (hlt : start < stop) (hstop : IsBoundary doc.text stop)
    (hsame : doc.SameSource doc') (hrel : (View.ofRange doc start stop stop).Closed m.loose rel)
    (hpens : ∀ style, rel style ⟨doc, start⟩ ⟨doc', start⟩) (hgoes : m.goesOn doc start doc' start)
    (hgood : m.Good (m.start doc start stop)) :
    ∃ pen pen', (∀ style, rel style pen pen') ∧ m.colour doc start stop = pen.doc ∧ m.colour doc' start stop = pen'.doc
      ∧ stop ≤ pen.segment := by
  have halike := h.alike_over hdoc hstart hlt hstop hsame hrel hpens hgoes hgood
  have hgood' := h.good_over hdoc hstart hlt hstop hsame hgoes hgood
  have hstart' : startsLine doc'.text start = true := by rwa [hsame.text]
  have hstop' : IsBoundary doc'.text stop := by rwa [IsBoundary, hsame.text]
  obtain ⟨t', hrun', hend'⟩ := h.ends hgood'
  obtain ⟨t, hrun, halike', _⟩ := h.lockstep hrel rfl hgood halike hrun'
  have hend := h.more_eq_false (stop_ofRange doc start stop) rfl halike' hend'
  have hcursor := h.cursor_alike halike'
  have hpos := hcursor.pos_eq_reach rfl hend'
  have hreach : stop ≤ (View.ofRange doc start stop stop).reach := (View.ofRange doc start stop stop).limit_le_reach
  have hsize : stop ≤ (m.cursor t).doc.size := hcursor.shows.limit_le
  obtain ⟨pen, pen', hpens, hfinish, hfinish', hsegment⟩ := h.alike_finish hrel halike'
  exact ⟨pen, pen', hpens, (h.colour_eq hdoc hstart hlt hstop hgood ⟨hrun, hend⟩).trans hfinish,
    (h.colour_eq (hsame.wellFormed hdoc) hstart' hlt hstop' hgood' ⟨hrun', hend'⟩).trans hfinish', by omega⟩

/--
What a pass leaves: the document in front of it, but for the marks of its range.
-/
theorem framed_colour (h : m.LawfulPass) (hdoc : doc.WellFormed) {start stop : Nat} (hstart : startsLine doc.text start = true)
    (hlt : start < stop) (hstop : IsBoundary doc.text stop) (hgood : m.Good (m.start doc start stop)) :
    ∃ pen : Pen, pen.Framed (.ofRange doc start stop stop) doc ∧ m.colour doc start stop = pen.doc := by
  obtain ⟨pen, _, hpens, hcolour, _⟩ := h.colour_over hdoc hstart hlt hstop (.refl doc) (View.closed_same rfl)
    (Pen.same_start doc start stop stop) (h.goesOn_refl hdoc start) hgood
  exact ⟨pen, (hpens 0).2, hcolour⟩

theorem sameSource_colour (h : m.LawfulPass) (hdoc : doc.WellFormed) {start stop : Nat} (hstart : startsLine doc.text start = true)
    (hlt : start < stop) (hstop : IsBoundary doc.text stop) (hgood : m.Good (m.start doc start stop)) :
    doc.SameSource (m.colour doc start stop) := by
  obtain ⟨pen, hframe, heq⟩ := h.framed_colour hdoc hstart hlt hstop hgood
  rw [heq]
  exact hframe.sameSource

/--
Each mark that they leave is the same, or neither has written it.
-/
theorem overlaid_colour (h : m.LawfulPass) {doc' : Document} (hdoc : doc.WellFormed) {start stop : Nat}
    (hstart : startsLine doc.text start = true) (hlt : start < stop) (hstop : IsBoundary doc.text stop)
    (hsame : doc.SameSource doc') (hgoes : m.goesOn doc start doc' start) (hgood : m.Good (m.start doc start stop)) :
    ∃ pen pen', Pen.Overlaid 0 doc doc' 0 pen pen' ∧ m.colour doc start stop = pen.doc ∧ m.colour doc' start stop = pen'.doc := by
  obtain ⟨pen, pen', hpens, hcolour, hcolour', _⟩ := h.colour_over hdoc hstart hlt hstop hsame View.closed_overlaid
    (Pen.overlaid_start doc doc' start) hgoes hgood
  exact ⟨pen, pen', hpens 0, hcolour, hcolour'⟩

theorem goesOn_colour (h : m.LawfulPass) (hdoc : doc.WellFormed) {start stop : Nat} (hstart : startsLine doc.text start = true)
    (hlt : start < stop) (hstop : IsBoundary doc.text stop) (hgood : m.Good (m.start doc start stop)) :
    m.goesOn doc start (m.colour doc start stop) start := by
  obtain ⟨pen, hframe, heq⟩ := h.framed_colour hdoc hstart hlt hstop hgood
  rw [heq]
  exact h.goesOn_of_agree hdoc hframe.sameSource (fun i hi => hframe.styles i (.inl hi))
    (fun l hl => hframe.lineStates l (.inl hl)) (fun l hl => hframe.levels l (.inl hl))

/--
A second pass over the same range changes nothing.
-/
theorem colour_again (h : m.LawfulPass) (hdoc : doc.WellFormed) {start stop : Nat} (hstart : startsLine doc.text start = true)
    (hlt : start < stop) (hstop : IsBoundary doc.text stop) (hgood : m.Good (m.start doc start stop)) :
    m.colour (m.colour doc start stop) start stop = m.colour doc start stop
      ∧ ∀ {far}, stop ≤ far → IsBoundary doc.text far → m.Good (m.start doc start far) →
        m.Good (m.start (m.colour doc start stop) start far) := by
  have hsame := h.sameSource_colour hdoc hstart hlt hstop hgood
  have hgoes := h.goesOn_colour hdoc hstart hlt hstop hgood
  have hgood_far : ∀ {far}, stop ≤ far → IsBoundary doc.text far → m.Good (m.start doc start far) →
      m.Good (m.start (m.colour doc start stop) start far) := by
    intro far hle hfar hgood
    exact h.good_over hdoc hstart (by omega) hfar hsame hgoes hgood
  refine ⟨?_, hgood_far⟩
  have hgood' := hgood_far (Nat.le_refl stop) hstop hgood
  have hstart' : startsLine (m.colour doc start stop).text start = true := by rwa [hsame.text]
  have hstop' : IsBoundary (m.colour doc start stop).text stop := by rwa [IsBoundary, hsame.text]
  obtain ⟨pen, pen', hrel, hfirst, hsecond⟩ := h.overlaid_colour hdoc hstart hlt hstop hsame hgoes hgood
  have hsame' := h.sameSource_colour (hsame.wellFormed hdoc) hstart' hlt hstop' hgood'
  refine hsame'.eq ?_ ?_ ?_
  . intro i
    rw [hsecond]
    rcases hrel.styles i with heq | ⟨_, heq⟩
    . rw [hfirst]
      exact heq
    . exact heq
  . intro l
    rw [hsecond]
    rcases hrel.lineStates l with heq | ⟨_, heq⟩
    . rw [hfirst]
      exact heq
    . exact heq
  . intro l
    rw [hsecond]
    rcases hrel.levels l with heq | ⟨_, heq⟩
    . rw [hfirst]
      exact heq
    . exact heq

/--
A pass that looks up no level leaves the same styles and line states whatever the levels are.
-/
theorem colour_congr_marks (h : m.LawfulPass) {doc' : Document} (hdoc : doc.WellFormed) {start stop : Nat}
    (hstart : startsLine doc.text start = true) (hlt : start < stop) (hstop : IsBoundary doc.text stop)
    (hsame : doc.SameSource doc') (hstyles : doc'.styles = doc.styles) (hstates : doc'.lineStates = doc.lineStates)
    (hgoes : m.goesOn doc start doc' start) (hgood : m.Good (m.start doc start stop)) :
    (m.colour doc' start stop).styles = (m.colour doc start stop).styles
      ∧ (m.colour doc' start stop).lineStates = (m.colour doc start stop).lineStates := by
  obtain ⟨pen, pen', hrel, heq, heq'⟩ := h.overlaid_colour hdoc hstart hlt hstop hsame hgoes hgood
  rw [heq, heq']
  constructor
  . apply Array.ext_getElem?
    intro i
    rcases hrel.styles i with hi | ⟨hi, hi'⟩
    . exact hi
    . rw [hi]
      exact hi'.trans (congrArg (·[i]?) hstyles)
  . apply Array.ext_getElem?
    intro l
    rcases hrel.lineStates l with hl | ⟨hl, hl'⟩
    . exact hl
    . rw [hl]
      exact hl'.trans (congrArg (·[l]?) hstates)

end LawfulPass

namespace Lawful

/--
A pass comes by each line start in its range with the same that a second pass begins with, behind one that
ended there.
-/
theorem exists_resume (h : m.Lawful) (hdoc : doc.WellFormed) {start mid stop : Nat} (hstart : startsLine doc.text start = true)
    (hlt : start < mid) (hmid : startsLine doc.text mid = true) (hlt' : mid < stop) (hstop : IsBoundary doc.text stop)
    (hgood : m.Good (m.start doc start stop)) :
    ∃ s opened, Iterates m.more m.step (m.start doc start stop) s ∧ (m.cursor s).pos = mid ∧ m.Good s
      ∧ m.alike (.ofRange (m.colour doc start mid) mid stop stop) (Pen.Late m.loose mid opened) s
        (m.start (m.colour doc start mid) mid stop) := by
  have hle := hstop.le_size
  have hwhole : (View.ofRange doc start mid stop).whole = false := by
    have : mid ≠ doc.size := by
      rw [Document.size]
      omega
    simpa [View.ofRange] using this
  have hgood₁ := h.good_part hdoc hstart hlt (.inl hmid) (Nat.le_of_lt hlt') hstop hgood
  have halike := h.alike_part hdoc hstart hlt (.inl hmid) (Nat.le_of_lt hlt') hstop hgood
  obtain ⟨t, hrun₁, hend₁⟩ := h.ends hgood₁
  have hfirst := h.colour_eq hdoc hstart hlt (.inl hmid) hgood₁ ⟨hrun₁, hend₁⟩
  obtain ⟨s, hrun, halike', hgood'⟩ := h.lockstep (View.closed_same rfl) rfl hgood halike hrun₁
  have hpos := (h.cursor_alike halike').pos_eq_reach rfl hend₁
  rw [View.reach_of_open hwhole] at hpos
  have hat : (m.cursor s).stop = doc.cursorStop stop := (h.cursor_alike halike').stop
  obtain ⟨opened, hresume⟩ := h.resume hgood'.storable_self rfl hwhole rfl hlt halike' hend₁ hlt' hstop hat
  rw [← hfirst] at hresume
  exact ⟨s, opened, hrun, hpos, hgood', hresume⟩

/--
A second pass behind one that ended at the line start `mid` goes on as if the first one had not
stopped.
-/
theorem colour_split (h : m.Lawful) (hdoc : doc.WellFormed) {start mid stop : Nat} (hstart : startsLine doc.text start = true)
    (hlt : start < mid) (hmid : startsLine doc.text mid = true) (hlt' : mid < stop) (hstop : IsBoundary doc.text stop)
    (hgood : m.Good (m.start doc start stop)) :
    m.colour doc start stop = m.colour (m.colour doc start mid) mid stop
      ∧ m.Good (m.start (m.colour doc start mid) mid stop) := by
  have hgood₁ := h.good_part hdoc hstart hlt (.inl hmid) (Nat.le_of_lt hlt') hstop hgood
  have hsame := h.sameSource_colour hdoc hstart hlt (.inl hmid) hgood₁
  obtain ⟨s, opened, hrun, _, hgood', hresume⟩ := h.exists_resume hdoc hstart hlt hmid hlt' hstop hgood
  have hgood₂ := h.good_alike (View.closed_late rfl opened) rfl hresume hgood'
  refine ⟨?_, hgood₂⟩
  obtain ⟨u, hrun₂, hend₂⟩ := h.ends hgood₂
  obtain ⟨s', hrun', halike₂, hgood''⟩ := h.lockstep (View.closed_late rfl opened) rfl hgood' hresume hrun₂
  have hend := h.more_eq_false (LawfulPass.stop_ofRange _ mid stop) rfl halike₂ hend₂
  obtain ⟨pen, pen', hrel, hfinish, hfinish', _⟩ := h.alike_finish (View.closed_late rfl opened) halike₂
  have hpen : pen' = pen := by
    rcases hrel (opened + 1) with heq | ⟨_, heq, _⟩
    . exact heq
    . simp at heq
  rw [h.colour_eq hdoc hstart (by omega) hstop hgood ⟨hrun.trans hrun', hend⟩,
    h.colour_eq (hsame.wellFormed hdoc) (by rw [hsame.text]; exact hmid) hlt' (by rw [IsBoundary, hsame.text]; exact hstop)
      hgood₂ ⟨hrun₂, hend₂⟩, hfinish, hfinish', hpen]

/--
A pass over a range of which the front is done already.
-/
theorem colour_extend (h : m.Lawful) (hdoc : doc.WellFormed) {start mid stop : Nat} (hstart : startsLine doc.text start = true)
    (hlt : start < mid) (hmid : IsBoundary doc.text mid) (hle : mid ≤ stop) (hstop : IsBoundary doc.text stop)
    (hgood : m.Good (m.start doc start stop)) :
    m.colour (m.colour doc start mid) start stop = m.colour doc start stop := by
  have hgood₁ := h.good_part hdoc hstart hlt hmid hle hstop hgood
  obtain ⟨hagain, hgood₂⟩ := h.colour_again hdoc hstart hlt hmid hgood₁
  by_cases heq : mid = stop
  . subst heq
    exact hagain
  . have hline := hmid.startsLine (by have := hstop.le_size; omega)
    have hsame := h.sameSource_colour hdoc hstart hlt hmid hgood₁
    obtain ⟨hsplit, _⟩ := h.colour_split hdoc hstart hlt hline (by omega) hstop hgood
    obtain ⟨hsplit', _⟩ := h.colour_split (hsame.wellFormed hdoc) (by rw [hsame.text]; exact hstart) hlt
      (by rw [hsame.text]; exact hline) (by omega) (by rw [IsBoundary, hsame.text]; exact hstop) (hgood₂ hle hstop hgood)
    rw [hsplit', hagain, hsplit]

end Lawful

end Colouring

end Highlight
