import Highlight.Proofs.Locality
import Highlight.Proofs.Sql.Pass

/-!
Where a pass over SQL can be interrupted. A second pass that begins at a line start goes on as the first
one would have, unless a stream comment ends right there and its segment starts with the line end in front.
-/

namespace Highlight

open LineIndex

namespace Pen

/--
One pen is in front of the token that is open at the line start `start`, the other one has coloured it up to
there; or both are the same, behind that.
-/
def Resumed (pen₀ : Pen) (start : Nat) (opened : Style) (style : Style) (pen pen' : Pen) : Prop :=
  style = opened ∧ pen = pen₀ ∧ pen' = pen₀.colourTo start opened ∨ start ≤ pen.segment ∧ pen' = pen

end Pen

/--
A view of all of a text, from `start` on.
-/
def View.ofWhole (doc : Document) (start : Nat) : View :=
  .ofRange doc start doc.size doc.size

theorem View.shows_ofWhole {doc doc' : Document} (hdoc : doc.WellFormed) (hsame : doc.SameSource doc') {start : Nat}
    (hstart : start ≤ doc.size) : (View.ofWhole doc start).Shows doc doc' where
  wellFormed := hdoc
  wellFormed' := hsame.wellFormed hdoc
  encoding := rfl
  encoding' := hsame.encoding
  options := rfl
  options' := hsame.options
  lead := fun i hi => absurd hi (Nat.not_lt_zero i)
  text := fun i _ => congrArg (·[i]?) hsame.text
  ends := by
    rw [View.ofWhole, View.ofRange, if_pos (beq_self_eq_true doc.size)]
    exact ⟨rfl, hsame.size⟩
  start_le := hstart
  first := rfl
  last := rfl
  reach_le := Nat.le_of_eq (Colouring.LawfulPass.stop_ofRange doc start doc.size).symm
  reach_le' := Nat.le_of_eq (Colouring.LawfulPass.stop_ofRange doc start doc.size).symm

namespace Sql

theorem kept_resumed {v : View} (hshift : v.shift = 0) {pen₀ : Pen} {opened : Style} (hsegment : pen₀.segment ≤ v.start)
    (hsize : v.start ≤ pen₀.doc.size) (hloose : loose opened = true) : Kept v (pen₀.Resumed v.start opened) where
  colourTo := by
    rw [hshift]
    rintro style pen pen' stop style' hshow hstart hreach (⟨rfl, rfl, rfl⟩ | ⟨hle, rfl⟩)
    . refine .inr ⟨?_, Pen.colourTo_colourTo _ hsegment hstart _⟩
      rw [Pen.segment_colourTo]
      omega
    . refine .inr ⟨?_, rfl⟩
      rw [Pen.segment_colourTo]
      omega
  restyle := by
    rintro style pen pen' style' hstyle (⟨rfl, _, _⟩ | h)
    . rw [hloose] at hstyle
      cases hstyle
    . exact .inr h
  segment := by
    rw [hshift]
    rintro style pen pen' hstyle (⟨rfl, _, _⟩ | ⟨_, rfl⟩)
    . rw [hloose] at hstyle
      cases hstyle
    . rfl

section Extend

variable {keywords : Keywords} {doc doc' : Document} {start mid stop : Nat}

/--
What a pass leaves: the document in front of it, but for the styles of its range.
-/
structure Framed (start stop : Nat) (doc doc' : Document) : Prop where
  sameSource : doc.SameSource doc'
  styles : ∀ i : Nat, i < start ∨ stop ≤ i → doc'.styles[i]? = doc.styles[i]?
  lineStates : doc'.lineStates = doc.lineStates
  levels : doc'.levels = doc.levels

theorem framed_pass (hdoc : doc.WellFormed) (hle : start ≤ stop) (hstop : IsBoundary doc.text stop) (keywords : Keywords) :
    Framed start stop doc (pass keywords doc start stop) := by
  obtain ⟨t, hrun, _, heq⟩ := exists_run keywords doc start stop
  have honward := hrun.onward.trans (.colourTo t.pen stop t.state)
  rw [heq]
  refine ⟨honward.sameSource, ?_, honward.lineStates, honward.levels⟩
  intro i hi
  rcases hi with hi | hi
  . exact honward.styles i (.inl hi)
  . rcases hstop with hline | hsize
    . have hpos := hrun.pos_le hline hle
      have hsegment := hrun.segment_le (Nat.le_refl start)
      refine honward.styles i (.inr ?_)
      rw [Pen.segment_colourTo]
      omega
    . have hstyles : doc.styles.size = doc.text.size := hdoc.styles
      have hstyles' : (t.pen.colourTo stop t.state).doc.styles.size = doc.styles.size := honward.sameSource.styles
      rw [Array.getElem?_eq_none (by omega), Array.getElem?_eq_none (by omega)]

theorem Framed.styleBefore (h : Framed start stop doc doc') : doc'.styleBefore start = doc.styleBefore start :=
  Document.styleBefore_congr (fun i hi => h.styles i (.inl hi))

/--
The styles that a pass gives depend on nothing but the text that it goes over, and the style in front of that.
-/
theorem styles_pass {v : View} (hshows : v.Shows doc doc') (hshift : v.shift = 0)
    (hstyle : doc'.styleBefore v.start = doc.styleBefore v.start) (hle : v.start ≤ stop) (hlimit : stop ≤ v.limit)
    (keywords : Keywords) {i : Nat} (hi : v.start ≤ i) (hlt : i < stop) :
    (pass keywords doc' v.start stop).styles[i]? = (pass keywords doc v.start stop).styles[i]? := by
  have hclosed : v.Closed loose _ := View.closed_covering hshift
  have hrel := kept_of_closed hclosed
  have halike : Scan.Alike v (Pen.Covering v.start) (.begin doc v.start) (.begin doc' v.start) :=
    ⟨hshows, by rw [hshift]; rfl, hstyle, .inl rfl, Pen.covering_start doc doc' v.start _, Nat.le_refl v.start⟩
  have hoptions : doc'.options = doc.options := hshows.options'.trans hshows.options.symm
  have hsteps (s s' : Scan) (hR : s.Alike v (Pen.Covering v.start) s' ∧ s.pen.segment ≤ s.pos) (hlt : s.pos < stop) :
      (stepFrom keywords doc v.start s).Alike v (Pen.Covering v.start) (stepFrom keywords doc' v.start s')
        ∧ (stepFrom keywords doc v.start s).pen.segment ≤ (stepFrom keywords doc v.start s).pos := by
    refine ⟨hR.1.step hrel (Nat.lt_of_lt_of_le hlt hlimit) hR.2 rfl ?_ ?_, Scan.segment_step_le _ hR.2⟩
    . show doc'.options.getFlag _ _ = doc.options.getFlag _ _
      rw [hoptions]
    . intro _ _
      show Scan.closesComment ⟨v.start, _, doc'.styleBefore v.start⟩ s' = Scan.closesComment ⟨v.start, _, doc.styleBefore v.start⟩ s
      rw [Scan.closesComment, Scan.closesComment, hR.1.pen.segment, hR.1.pos_eq hshift, hR.1.state, hstyle]
  obtain ⟨t', hrun', hend', heq'⟩ := exists_run keywords doc' v.start stop
  obtain ⟨t, hrun, halike', _⟩ : ∃ t, Run keywords doc v.start stop (.begin doc v.start) t
      ∧ t.Alike v (Pen.Covering v.start) t' ∧ t.pen.segment ≤ t.pos :=
    hrun'.lockstep (fun s s' hR hlt => hR.1.pos_eq hshift ▸ hlt) hsteps ⟨halike, Nat.le_refl v.start⟩
  have hpen := hrel.colourTo 0 halike'.shows hle (Nat.le_trans hlimit v.limit_le_reach) halike'.pen
  rw [hshift] at hpen
  rw [heq', hrun.pass_eq (halike'.pos_eq hshift ▸ hend'), halike'.state]
  refine hpen.styles i hi ?_
  have := halike'.shows.limit_le
  rw [Pen.segment_colourTo]
  omega

/--
A pass does not depend on what the styles of its range were.
-/
theorem pass_of_framed (hdoc : doc.WellFormed) (hframed : Framed start mid doc doc') (hle : start ≤ stop) (hmid : mid ≤ stop)
    (hstop : IsBoundary doc.text stop) (keywords : Keywords) : pass keywords doc' start stop = pass keywords doc start stop := by
  have hsame := hframed.sameSource
  have hpass := framed_pass hdoc hle hstop keywords
  have hpass' := framed_pass (hsame.wellFormed hdoc) hle (by rwa [IsBoundary, hsame.text]) keywords
  refine (hpass.sameSource.symm.trans (hsame.trans hpass'.sameSource)).eq ?_ ?_ ?_
  . intro i
    by_cases hi : start ≤ i ∧ i < stop
    . exact styles_pass (View.shows_ofWhole hdoc hsame (Nat.le_trans hle hstop.le_size)) rfl hframed.styleBefore hle hstop.le_size
        keywords hi.1 hi.2
    . rw [hpass.styles i (by omega), hpass'.styles i (by omega), hframed.styles i (by omega)]
  . intro l
    rw [hpass.lineStates, hpass'.lineStates, hframed.lineStates]
  . intro l
    rw [hpass.levels, hpass'.levels, hframed.levels]

/--
A pass over a range of which the front is done already.
-/
theorem pass_extend (hdoc : doc.WellFormed) (hle : start ≤ mid) (hmid : IsBoundary doc.text mid) (hle' : mid ≤ stop)
    (hstop : IsBoundary doc.text stop) : pass keywords (pass keywords doc start mid) start stop = pass keywords doc start stop :=
  pass_of_framed hdoc (framed_pass hdoc hle hmid keywords) (Nat.le_trans hle hle') hle' hstop keywords

end Extend

section Split

/--
A stream comment seems to end at the line start `pos`, and the byte in front of the line end before it is
the last one of a documentation keyword.
-/
def ClosesBehindKeyword (doc : Document) (pos : Nat) : Prop :=
  2 ≤ pos ∧ isDocKeyword (doc.styleAt (pos - 2)) = true ∧ (codeAt doc pos).is '*' = true ∧ (codeAt doc (pos + 1)).is '/' = true

instance (doc : Document) (pos : Nat) : Decidable (ClosesBehindKeyword doc pos) :=
  inferInstanceAs (Decidable (_ ∧ _))

namespace Scan

variable {s s' t : Scan} {pen₀ : Pen} {start : Nat} {opened : Highlight.Style}

/--
A segment that starts right at a line start was opened there, between tokens or as a documentation keyword.
-/
def StartsAt (start : Nat) (opened : Highlight.Style) (s : Scan) : Prop :=
  s.pen.segment = start → opened = Style.default ∨ s.state = Style.docKeyword ∧ start < s.pos

theorem StartsAt.turn (h : s.StartsAt start opened) (hturn : s.Turn t) (hs : s.Sound) (hlt : s.pos < s.doc.size)
    (hstart : startsLine s.doc.text start = true) (hle : start ≤ s.pos) (hopened : s.pen.segment < start → s.state = opened) :
    t.pen.segment = start → opened = Style.default ∨ t.state = Style.docKeyword ∧ start < t.pos + 1 := by
  intro heq
  have hlt : s.pos < s.pen.doc.size := hlt
  have hmono := hturn.onward.segment_le
  -- A token that ends with a segment in front of the position is not open at a line start.
  have hends (hpen : s.pos ≤ t.pen.segment) (hstate : loose s.state = false) : False := by
    have hpos : s.pos = start := by omega
    rw [(hs.loose (hpos ▸ hstart)).1] at hstate
    cases hstate
  cases hturn with
  | stay _ =>
    rcases h heq with hdefault | ⟨hstate, hpos⟩
    . exact .inl hdefault
    . exact .inr ⟨hstate, Nat.lt_succ_of_lt hpos⟩
  | skip _ _ =>
    rcases h heq with hdefault | ⟨hstate, hpos⟩
    . exact .inl hdefault
    . exact .inr ⟨hstate, Nat.lt_succ_of_lt (Nat.lt_succ_of_lt hpos)⟩
  | start style hstate _ =>
    by_cases hfront : s.pen.segment < start
    . exact .inl ((hopened hfront).symm.trans hstate)
    . rcases h (by omega) with hdefault | ⟨hkeyword, _⟩
      . exact .inl hdefault
      . rw [hstate] at hkeyword
        cases hkeyword
  | operator _ _ =>
    exfalso
    have heq : ((s.pen.colourTo s.pos Style.default).colourTo (s.pos + 1) Style.operator).segment = start := heq
    rw [Pen.segment_colourTo, (Cursor.sameSource_colourTo _ _ _).size] at heq
    omega
  | keyword _ _ => exact .inr ⟨rfl, Nat.lt_succ_of_le hle⟩
  | keywordEnd style hstate _ =>
    refine (hends ?_ (by rw [hstate]; rfl)).elim
    show s.pos ≤ (s.pen.colourTo s.pos style).segment
    rw [Pen.segment_colourTo]
    omega
  | leave stop style pos hleaves henters =>
    have hentered : (s.pen.colourTo stop style).segment ≤ t.pen.segment := henters.onward.segment_le
    rw [Pen.segment_colourTo] at hentered
    cases hleaves with
    | word style hstate => exact (hends (by omega) (by rw [hstate]; rfl)).elim
    | line hstate => exact (hends (by omega) (loose_of_isLineStyle hstate)).elim
    | keyword hstate => exact (hends (by omega) (by rw [hstate]; rfl)).elim
    | comment _ _ => omega
    | string _ _ => omega

/--
A comment that has gone on over the line start `start` is not taken for its own start.
-/
theorem segment_lt_of_ends (hs : s.Sound) (hstart : startsLine s.doc.text start = true) (hfront : s.pen.segment < start)
    (hle : start ≤ s.pos) (hfree : s.pen.segment + 1 = start → ¬ ClosesBehindKeyword s.doc start)
    (hstate : s.state = Style.comment ∨ s.state = Style.commentDoc) (hends : (s.cur.is '/' && s.prev.is '*') = true) :
    s.pen.segment + 2 < s.pos := by
  have hprev := hs.prev (by omega)
  rw [Bool.and_eq_true, hprev] at hends
  have hne : s.pos ≠ start := by
    rintro rfl
    have hstar := endsLine_of_codeAt (isLineEnd_of_test (fun c => Code.is c '*') rfl rfl hends.2)
    rw [show s.pos = s.pos - 1 + 1 by omega, startsLine_succ, hstar] at hstart
    cases hstart
  apply Decidable.byContradiction
  intro hnot
  have hsegment : s.pen.segment + 1 = start := by omega
  have hpos : s.pos = start + 1 := by omega
  rcases hs.opened hstate with hends' | ⟨hpositive, hkeyword⟩
  . rw [← hsegment, startsLine_succ, hends'] at hstart
    cases hstart
  . refine hfree hsegment ⟨by omega, ?_, ?_, ?_⟩
    . rw [show start - 2 = s.pen.segment - 1 by omega]
      exact hkeyword
    . rw [show start = s.pos - 1 by omega]
      exact hends.2
    . rw [← hpos]
      exact hends.1

/--
A pass that began at `start` with the token that was open there finds the end of a comment where one that came
from the start of the text does.
-/
theorem closesComment_resumed {v : View} (hshift : v.shift = 0) (halike : s.Alike v (pen₀.Resumed start opened) s') (hs : s.Sound)
    (hle : start ≤ s.pos) (hstarts : s.StartsAt start opened) (hstart : startsLine s.doc.text start = true) (hfront : pen₀.segment < start)
    (hfree : pen₀.segment + 1 = start → ¬ ClosesBehindKeyword pen₀.doc start)
    (hstate : s.state = Style.comment ∨ s.state = Style.commentDoc) (hends : (s.cur.is '/' && s.prev.is '*') = true)
    (length length' : Nat) : s'.closesComment ⟨start, length', opened⟩ = s.closesComment ⟨0, length, Style.default⟩ := by
  have hdefault : (Style.default == s.state) = false := by
    rcases hstate with hstate | hstate
    . rw [hstate]
      rfl
    . rw [hstate]
      rfl
  rw [closesComment, closesComment, hdefault, Bool.false_and, Bool.or_false, halike.state, halike.pos_eq hshift]
  rcases halike.pen with ⟨hopen, hpen, hpen'⟩ | ⟨hle, hpen'⟩
  . have hsize : start ≤ pen₀.doc.size := by
      rw [← hpen]
      exact le_size_of_startsLine hstart
    have hsegment : s'.pen.segment = start := by
      rw [hpen', Pen.segment_colourTo]
      omega
    have hcloses : s.pen.segment + 2 < s.pos := by
      subst hpen
      exact segment_lt_of_ends hs hstart hfront hle hfree hstate hends
    rw [hopen, hsegment, beq_self_eq_true, beq_self_eq_true, Bool.and_self, Bool.or_true, decide_eq_true hcloses]
  . have hno : (opened == s.state && s.pen.segment == start) = false := by
      rw [Bool.and_eq_false_iff, beq_eq_false_iff_ne, beq_eq_false_iff_ne]
      by_cases hsegment : s.pen.segment = start
      . left
        rcases hstarts hsegment with hopened | ⟨hkeyword, _⟩
        . rw [hopened]
          exact beq_eq_false_iff_ne.mp hdefault
        . rcases hstate with hstate | hstate
          . rw [hstate] at hkeyword
            cases hkeyword
          . rw [hstate] at hkeyword
            cases hkeyword
      . exact .inr hsegment
    rw [hpen', hno, Bool.or_false]

end Scan

variable {keywords : Keywords} {doc : Document} {start stop : Nat} {s : Scan}

theorem sound_begin (hdoc : doc.WellFormed) (hsingle : ∀ b, doc.encoding.isLeadByte b = false) : (Scan.begin doc 0).Sound where
  singleByte := hsingle
  wellFormed := hdoc
  isOpenStyle := rfl
  segment_le := Nat.le_refl 0
  keyword := by
    intro h
    cases h
  opened := by
    rintro (h | h)
    . cases h
    . cases h
  prev := fun h => absurd h (Nat.lt_irrefl 0)
  loose := fun _ => ⟨rfl, fun h => absurd h (Nat.lt_irrefl 0)⟩

theorem Run.sound (h : Run keywords doc 0 stop (.begin doc 0) s) (hdoc : doc.WellFormed)
    (hsingle : ∀ b, doc.encoding.isLeadByte b = false) (hstop : stop ≤ doc.size) : s.Sound ∧ doc.SameSource s.doc := by
  refine h.invariant (fun s => s.Sound ∧ doc.SameSource s.doc) ?_ ⟨sound_begin hdoc hsingle, .refl doc⟩
  intro s hmore hs
  have hlt : s.pos < s.doc.size := by
    have := of_decide_eq_true hmore
    rw [hs.2.size]
    omega
  exact ⟨hs.1.step hlt _, hs.2.trans (s.onward_step _).sameSource⟩

/--
A pass from the start of the text comes by each line start.
-/
theorem exists_at (keywords : Keywords) (hstart : startsLine doc.text start = true) :
    ∃ s, Run keywords doc 0 start (.begin doc 0) s ∧ s.pos = start
      ∧ pass keywords doc 0 start = (s.pen.colourTo start s.state).doc := by
  obtain ⟨s, hrun, hend, heq⟩ := exists_run keywords doc 0 start
  exact ⟨s, hrun, Nat.le_antisymm (hrun.pos_le hstart (Nat.zero_le start)) hend, heq⟩

/--
Whether a pass from the start of the text can be interrupted at `start`.
-/
def Resumable (keywords : Keywords) (doc : Document) (start : Nat) : Prop :=
  ∀ s, Run keywords doc 0 start (.begin doc 0) s → s.pos = start → s.pen.segment + 1 = start → ¬ ClosesBehindKeyword s.doc start

/--
The scan of a second pass, which begins where the first one was interrupted.
-/
theorem alike_begin (hs : s.Sound) (hpos : 0 < s.pos) (hstart : startsLine s.doc.text s.pos = true) :
    s.Alike (.ofWhole s.doc s.pos) (s.pen.Resumed s.pos s.state) (.begin (s.pen.colourTo s.pos s.state).doc s.pos) := by
  have hfront := (hs.loose hstart).2 hpos
  have hsize : s.pos ≤ s.pen.doc.size := le_size_of_startsLine hstart
  have hsegment : (s.pen.colourTo s.pos s.state).segment = s.pos := by
    rw [Pen.segment_colourTo]
    omega
  have hprev : s.prev.isSpace = true := by
    rw [hs.prev hpos]
    rcases codeAt_of_endsLine (endsLine_of_startsLine hstart hpos) with hcode | hcode
    . rw [hcode]
      rfl
    . rw [hcode]
      rfl
  exact
    { shows := View.shows_ofWhole hs.wellFormed (Cursor.sameSource_colourTo _ _ _) hsize
      pos := rfl
      state := Pen.styleBefore_colourTo hs.wellFormed hfront hsize s.state
      prev := .inr ⟨rfl, hprev⟩
      pen := .inl ⟨rfl, rfl, congrArg (Pen.mk _) hsegment.symm⟩
      start_le := Nat.le_refl _ }

/--
The scan `s'` of a pass that began at `start` goes on from what the scan `s` of one from the start of the text has
come to.
-/
structure Follows (base : Document) (pen₀ : Pen) (start : Nat) (opened : Style) (s s' : Scan) : Prop where
  alike : s.Alike (.ofWhole base start) (pen₀.Resumed start opened) s'
  sound : s.Sound
  startsAt : s.StartsAt start opened

theorem Follows.step {base : Document} {pen₀ : Pen} {opened : Style} {s' : Scan} {doc' : Document}
    (h : Follows base pen₀ start opened s s') (hfront : pen₀.segment < start) (hloose : loose opened = true)
    (hfree : pen₀.segment + 1 = start → ¬ ClosesBehindKeyword pen₀.doc start)
    (hstart : startsLine s.doc.text start = true) (hlt : s.pos < s.doc.size) (hbase : base.SameSource s.doc)
    (hsame : doc.SameSource doc') (hopened : doc'.styleBefore start = opened) (hpen₀ : start ≤ pen₀.doc.size) :
    Follows base pen₀ start opened (stepFrom keywords doc 0 s) (stepFrom keywords doc' start s') := by
  have hs := h.sound
  have hle : start ≤ s.pos := h.alike.start_le
  have hin : s.pos < base.size := by rwa [← hbase.size]
  have hrel : Kept (.ofWhole base start) (pen₀.Resumed start opened) := kept_resumed rfl (Nat.le_of_lt hfront) hpen₀ hloose
  refine ⟨h.alike.step hrel hin hs.segment_le rfl ?_ ?_, hs.step hlt _, ?_⟩
  . show doc'.options.getFlag _ _ = doc.options.getFlag _ _
    rw [hsame.options]
  . intro hstate hends
    show s'.closesComment ⟨start, _, doc'.styleBefore start⟩ = s.closesComment ⟨0, _, Style.default⟩
    rw [hopened]
    exact Scan.closesComment_resumed rfl h.alike hs hle h.startsAt hstart hfront hfree hstate hends _ _
  . have hturn := Scan.turn_spec s (.read keywords doc.options (doc.spanOf 0 0))
    rw [stepFrom, Scan.step_eq hs.singleByte]
    refine h.startsAt.turn hturn hs hlt hstart hle ?_
    intro hin
    rcases h.alike.pen with ⟨heq, _, _⟩ | ⟨hle, _⟩
    . exact heq
    . omega

/--
A second pass behind one that was interrupted at the line start `start` goes on as if the first one had not stopped.
-/
theorem pass_split (hdoc : doc.WellFormed) (hsingle : ∀ b, doc.encoding.isLeadByte b = false) (hpos : 0 < start)
    (hstart : startsLine doc.text start = true) (hle : start ≤ stop) (hstop : stop ≤ doc.size)
    (hresume : Resumable keywords doc start) :
    pass keywords (pass keywords doc 0 start) start stop = pass keywords doc 0 stop := by
  obtain ⟨s, hrun, rfl, heq⟩ := exists_at keywords hstart
  have hfree := hresume s hrun rfl
  obtain ⟨hs, hsame⟩ := hrun.sound hdoc hsingle (Nat.le_trans hle hstop)
  have hstart' : startsLine s.doc.text s.pos = true := by rwa [hsame.text]
  have hsize' : s.pos ≤ s.pen.doc.size := le_size_of_startsLine hstart'
  obtain ⟨hloose, hfront⟩ := hs.loose hstart'
  have hfront := hfront hpos
  have halike := alike_begin hs hpos hstart'
  have hsame' := hsame.trans (Cursor.sameSource_colourTo s.pen s.pos s.state)
  rw [heq]
  generalize (s.pen.colourTo s.pos s.state).doc = doc' at *
  obtain ⟨t', hrun', hend', heq'⟩ := exists_run keywords doc' s.pos stop
  obtain ⟨t, hrest, hfollows, _⟩ : ∃ t, Run keywords doc 0 stop s t ∧ Follows s.doc s.pen s.pos s.state t t' ∧ s.doc.SameSource t.doc := by
    refine hrun'.lockstep (R := fun t t' => Follows s.doc s.pen s.pos s.state t t' ∧ s.doc.SameSource t.doc)
      (fun t t' h hlt => h.1.alike.pos_eq rfl ▸ hlt) ?_ ⟨⟨halike, hs, ?_⟩, .refl s.doc⟩
    . intro t t' h hlt
      refine ⟨h.1.step hfront hloose hfree ?_ ?_ h.2 hsame' halike.state hsize', h.2.trans (t.onward_step _).sameSource⟩
      . rwa [h.2.text]
      . rw [h.2.size, hsame.size]
        omega
    . intro hsegment
      omega
  have hwhole := (hrun.mono hle).trans hrest
  have hrel : Kept (.ofWhole s.doc s.pos) (s.pen.Resumed s.pos s.state) := kept_resumed rfl (Nat.le_of_lt hfront) hsize' hloose
  have hreach : stop ≤ (View.ofWhole s.doc s.pos).reach := by
    refine Nat.le_trans ?_ (View.limit_le_reach _)
    rw [← hsame.size] at hstop
    exact hstop
  have hpen : s.pen.Resumed s.pos s.state Style.word (t.pen.colourTo stop t.state) (t'.pen.colourTo stop t.state) :=
    hrel.colourTo Style.word hfollows.alike.shows hle hreach hfollows.alike.pen
  rw [heq', hfollows.alike.state, Run.pass_eq hwhole (hfollows.alike.pos_eq rfl ▸ hend')]
  rcases hpen with ⟨hword, _, _⟩ | ⟨_, hpen⟩
  . rw [← hword] at hloose
    cases hloose
  . rw [hpen]

/--
What is in front of a line start stays as a pass up to there leaves it.
-/
theorem styles_pass_upTo (hdoc : doc.WellFormed) (hsingle : ∀ b, doc.encoding.isLeadByte b = false) (hpos : 0 < start)
    (hstart : startsLine doc.text start = true) (hle : start ≤ stop) (hstop : stop ≤ doc.size) {i : Nat} (hi : i < start) :
    (pass keywords doc 0 stop).styles[i]? = (pass keywords doc 0 start).styles[i]? := by
  obtain ⟨s, hrun, rfl, heq⟩ := exists_at keywords hstart
  obtain ⟨t, hwhole, hend, heq'⟩ := exists_run keywords doc 0 stop
  have hrest : Run keywords doc 0 stop s t := (hrun.mono hle).rest hwhole (decide_eq_false (by omega))
  obtain ⟨hs, hsame⟩ := hrun.sound hdoc hsingle (Nat.le_trans hle hstop)
  have hstart' : startsLine s.doc.text s.pos = true := by rwa [hsame.text]
  have hsize' : s.pos ≤ s.pen.doc.size := le_size_of_startsLine hstart'
  have hloose := (hs.loose hstart').1
  -- All along the rest of the run the pen holds what is in front of the line start.
  generalize hv : View.ofWhole s.doc s.pos = v
  have hvstart : v.start = s.pos := by rw [← hv]; rfl
  have hlimit : v.limit = doc.size := by rw [← hsame.size, ← hv]; rfl
  have hshift : v.shift = 0 := by rw [← hv]; rfl
  have hrel : Kept v (Pen.Holding loose v.start v.first (s.pen.colourTo s.pos s.state).doc) :=
    kept_of_closed (View.closed_holding hshift)
  have hhold : Pen.Holding loose v.start v.first (s.pen.colourTo s.pos s.state).doc s.state s.pen s.pen := by
    rw [hvstart]
    refine ⟨rfl, hsize', ?_, fun _ _ => rfl, fun _ _ => by rw [Pen.lineStates_colourTo]⟩
    rw [hloose]
    exact nofun
  have halike : s.Alike v (Pen.Holding loose v.start v.first (s.pen.colourTo s.pos s.state).doc) s :=
    ⟨hv ▸ View.shows_ofWhole hs.wellFormed (.refl s.doc) hsize', by rw [hshift]; rfl, rfl, .inl rfl, hhold, Nat.le_of_eq hvstart⟩
  have hkept := hrest.invariant (fun t => t.Alike v (Pen.Holding loose v.start v.first (s.pen.colourTo s.pos s.state).doc) t
    ∧ t.pen.segment ≤ t.pos) (by
      intro t hmore ht
      have := of_decide_eq_true hmore
      exact ⟨ht.1.step hrel (by omega) ht.2 rfl rfl (fun _ _ => rfl), Scan.segment_step_le _ ht.2⟩) ⟨halike, hs.segment_le⟩
  have hreach := v.limit_le_reach
  have hpen := hrel.colourTo 0 hkept.1.shows (show v.start ≤ stop by omega) (by omega) hkept.1.pen
  rw [hshift] at hpen
  have hsegment : i < (t.pen.colourTo stop t.state).segment := by
    have hsize := hkept.1.shows.limit_le
    rw [Pen.segment_colourTo]
    omega
  rw [heq, heq', ← Pen.getElem?_colourTo_of_le _ hsegment v.start 0]
  exact hpen.styles i (by omega)

/--
What is in front of the open segment is as the whole pass leaves it.
-/
theorem resumable_of_pass (_ : doc.WellFormed) (_ : ∀ b, doc.encoding.isLeadByte b = false) (hle : start ≤ stop)
    (hfree : ¬ ClosesBehindKeyword (pass keywords doc 0 stop) start) : Resumable keywords doc start := by
  rintro s hrun rfl hsegment ⟨hpos, hkeyword, hstar, hslash⟩
  obtain ⟨t, hwhole, hend, heq⟩ := exists_run keywords doc 0 stop
  have hrest : Run keywords doc 0 stop s t := (hrun.mono hle).rest hwhole (decide_eq_false (by omega))
  have honward := hrest.onward.trans (.colourTo t.pen stop t.state)
  have htext : (t.pen.colourTo stop t.state).doc.text = s.doc.text := honward.sameSource.text
  refine hfree ?_
  rw [heq]
  refine ⟨hpos, ?_, ?_, ?_⟩
  . rw [Document.styleAt, honward.styles (s.pos - 2) (.inl (by omega))]
    exact hkeyword
  . rw [codeAt_congr htext]
    exact hstar
  . rw [codeAt_congr htext]
    exact hslash

/--
Going on from a line start at which the pass can be interrupted, over lines that are coloured already.
-/
theorem pass_goOn {mid : Nat} (hdoc : doc.WellFormed) (hsingle : ∀ b, doc.encoding.isLeadByte b = false)
    (hstart : startsLine doc.text start = true) (hresume : Resumable keywords doc start) (hle : start ≤ mid)
    (hmid : IsBoundary doc.text mid) (hle' : mid ≤ stop) (hstop : IsBoundary doc.text stop) :
    pass keywords (pass keywords doc 0 mid) start stop = pass keywords doc 0 stop := by
  by_cases hzero : start = 0
  . subst hzero
    exact pass_extend hdoc hle hmid hle' hstop
  . have hpos : 0 < start := by omega
    have hsame := (framed_pass hdoc (Nat.zero_le start) (.inl hstart) keywords).sameSource
    rw [← pass_split hdoc hsingle hpos hstart hle hmid.le_size hresume,
      ← pass_split hdoc hsingle hpos hstart (Nat.le_trans hle hle') hstop.le_size hresume]
    exact pass_extend (hsame.wellFormed hdoc) hle (by rwa [IsBoundary, hsame.text]) hle' (by rwa [IsBoundary, hsame.text])

end Split

end Sql

end Highlight
