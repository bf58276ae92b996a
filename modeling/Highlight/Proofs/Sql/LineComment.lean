import Highlight.Proofs.Document.Lines
import Highlight.Proofs.Sql.OpenToken

/-!
Where the line comments of SQL end: with their lines, except where a character of two bytes takes the terminator in.
-/

namespace Highlight.Sql

open LineIndex

variable {keywords : Keywords} {doc : Document} {i line : Nat}

/--
A step opens a line comment with the byte `i`.
-/
def OpensLine (keywords : Keywords) (doc : Document) (i : Nat) : Prop :=
  ∃ s, Visits keywords doc s ∧ isLineStyle s.state = false ∧ isLineStyle (stepFrom keywords doc 0 s).state = true
    ∧ (stepFrom keywords doc 0 s).pen.segment = i

/--
The last character of a line comment in front of the line start `i` has two bytes, and the second one is the terminator.
-/
def RunsOver (keywords : Keywords) (doc : Document) (i : Nat) : Prop :=
  ∃ s, Visits keywords doc s ∧ isLineStyle s.state = true ∧ s.atLead = true ∧ s.pos + 2 = i

namespace Scan

variable {s t : Scan} {settings : Settings}

section Turn

variable (hsegment : s.pen.segment ≤ s.pos) (hsize : s.pos < s.doc.size)
include hsegment hsize

/--
A line comment that a turn opens starts at the byte that the turn comes to.
-/
theorem Turn.segment_of_opens (h : s.Turn t) (hs : isLineStyle s.state = false) (ht : isLineStyle t.state = true) :
    t.pen.segment = t.pos := by
  have hsize : s.pos < s.pen.doc.size := hsize
  cases h with
  | stay _ =>
    rw [hs] at ht
    cases ht
  | skip _ _ => exact absurd (hs.symm.trans ht) Bool.false_ne_true
  | start style _ _ =>
    show (s.pen.colourTo s.pos s.state).segment = s.pos
    rw [Pen.segment_colourTo]
    omega
  | operator _ _ => exact absurd (hs.symm.trans ht) Bool.false_ne_true
  | keyword _ _ => cases ht
  | keywordEnd style _ _ => cases ht
  | leave stop style pos hleaves henters =>
    cases henters with
    | start state hstart =>
      show (s.pen.colourTo stop style).segment = pos
      rw [Pen.segment_colourTo]
      cases hleaves with
      | word _ _ => omega
      | line hstate =>
        rw [hs] at hstate
        cases hstate
      | keyword _ => omega
      | comment _ hslash =>
        -- A slash starts no line comment.
        have hcur : ({ s with pen := s.pen.colourTo (s.pos + 1) s.state, state := Style.default } : Scan).cur = s.cur :=
          cur_congr (Cursor.sameSource_colourTo s.pen (s.pos + 1) s.state).text rfl
        rw [starting?_of_slash (by rw [hcur]; exact hslash)] at hstart
        split at hstart
        . split at hstart
          . cases hstart
            cases ht
          . cases hstart
            cases ht
        . cases hstart
      | string _ _ => omega
    | operator _ => cases ht
    | blank => cases ht

/--
A turn paints the current byte, with a style of another kind than line comments, or leaves it to the open token.
-/
theorem Turn.first (h : s.Turn t) (hdoc : s.doc.WellFormed) :
    t.pen.segment ≤ s.pos ∨ s.pos < t.pen.segment ∧ isLineStyle (t.doc.styleAt s.pos) = false := by
  have hsize' : s.pos < s.pen.doc.size := hsize
  have hcoloured {pen : Pen} (hpen : s.pen.Onward pen) (hle : pen.segment ≤ s.pos) {style : Highlight.Style}
      (hstyle : isLineStyle style = false) {pen' : Pen} (honward : (pen.colourTo (s.pos + 1) style).Onward pen') :
      s.pos < pen'.segment ∧ isLineStyle (pen'.doc.styleAt s.pos) = false := by
    have hsame : pen.doc.size = s.pen.doc.size := hpen.sameSource.size
    have hlt : s.pos < (pen.colourTo (s.pos + 1) style).segment := by
      rw [Pen.segment_colourTo]
      omega
    refine ⟨Nat.lt_of_lt_of_le hlt honward.segment_le, ?_⟩
    rw [styleAt_of_onward honward hlt,
      Pen.styleAt_colourTo (hpen.sameSource.wellFormed hdoc) hle (Nat.lt_succ_self _) (by omega)]
    exact hstyle
  have hopen {stop : Nat} (style : Highlight.Style) (hstop : stop ≤ s.pos) : (s.pen.colourTo stop style).segment ≤ s.pos := by
    rw [Pen.segment_colourTo]
    omega
  cases h with
  | stay _ => exact .inl hsegment
  | skip _ _ => exact .inl hsegment
  | start style _ _ => exact .inl (hopen _ (Nat.le_refl _))
  | operator _ _ =>
    exact .inr (hcoloured (.colourTo s.pen s.pos Style.default) (hopen _ (Nat.le_refl _)) rfl (.refl _))
  | keyword _ _ => exact .inl (hopen _ (Nat.le_refl _))
  | keywordEnd style _ _ => exact .inl (hopen _ (Nat.le_refl _))
  | leave stop style pos hleaves henters =>
    have hbehind {style : Highlight.Style}
        (henters : Enters { s with pen := s.pen.colourTo s.pos style, state := Style.default, pos := s.pos } t) :
        t.pen.segment ≤ s.pos ∨ s.pos < t.pen.segment ∧ isLineStyle (t.doc.styleAt s.pos) = false := by
      cases henters with
      | start state _ => exact .inl (hopen _ (Nat.le_refl _))
      | operator _ =>
        have hsegment' := hopen style (Nat.le_refl s.pos)
        refine .inr (hcoloured (.trans (.colourTo _ _ style) (.colourTo _ s.pos Style.default)) ?_ rfl (.refl _))
        rw [Pen.segment_colourTo]
        omega
      | blank => exact .inl (hopen _ (Nat.le_refl _))
    cases hleaves with
    | word _ _ => exact hbehind henters
    | line _ => exact hbehind henters
    | keyword _ => exact hbehind henters
    | comment hstate _ =>
      refine .inr (hcoloured (.refl _) hsegment ?_ henters.onward)
      rcases hstate with hstate | hstate
      . rw [hstate]
        rfl
      . rw [hstate]
        rfl
    | string hstate _ =>
      refine .inr (hcoloured (.refl _) hsegment ?_ henters.onward)
      rcases hstate with hstate | hstate
      . rw [hstate]
        rfl
      . rw [hstate]
        rfl

end Turn

/--
The current byte becomes part of the open token behind the step, or it is no byte of a line comment.
-/
theorem together_first (hdoc : s.doc.WellFormed) (hsegment : s.pen.segment ≤ s.pos) (hsize : s.pos < s.doc.size) (settings : Settings) :
    (s.step settings).Together isLineStyle false s.pos (s.pos + 1)
      ∨ (s.step settings).pen.segment ≤ s.pos ∧ (s.step settings).Together isLineStyle (isLineStyle (s.step settings).state) s.pos (s.pos + 1) := by
  have hopened {t : Scan} (hle : t.pen.segment ≤ s.pos) (hlt : s.pos < t.pos) :
      t.pen.segment ≤ s.pos ∧ t.Together isLineStyle (isLineStyle t.state) s.pos (s.pos + 1) :=
    ⟨hle, .opened hle hlt rfl⟩
  cases hlead : s.atLead with
  | true =>
    rw [step_of_lead hlead]
    exact .inr (hopened hsegment (Nat.lt_add_of_pos_right (by decide)))
  | false =>
    have hturn := turn_spec s settings
    have hpos := hturn.pos_cases
    rw [step_of_turn hlead]
    rcases hturn.first hsegment hsize hdoc with hle | ⟨hlt, hstyle⟩
    . exact .inr (hopened hle (show s.pos < (s.turn settings).pos + 1 by omega))
    . refine .inl (.painted _ hlt hstyle ?_)
      intro i hle hi
      rw [show i = s.pos by omega]
      rfl

/--
A line comment goes on up to the end of its line.
-/
theorem step_of_isLineStyle (hstate : isLineStyle s.state = true) (hcur : s.cur.isLineEnd = false) (settings : Settings) :
    (s.step settings).pen = s.pen ∧ (s.step settings).state = s.state ∧ s.pos < (s.step settings).pos := by
  cases hlead : s.atLead with
  | true =>
    rw [step_of_lead hlead]
    exact ⟨rfl, rfl, Nat.lt_add_of_pos_right (by decide)⟩
  | false =>
    have hturn : s.turn settings = s := by
      rw [turn_of_token rfl (ne_of_isLineStyle hstate), stepInToken, leave_of_isLineStyle hstate, hcur]
      exact if_neg (fun h => (ne_of_isLineStyle hstate).1 (beq_iff_eq.mp h))
    rw [step_of_turn hlead, hturn]
    exact ⟨rfl, rfl, Nat.lt_succ_self _⟩

/--
At the end of its line, a line comment is over.
-/
theorem isLineStyle_step_of_isLineEnd (s : Scan) (hsegment : s.pen.segment ≤ s.pos) (hstate : isLineStyle s.state = true)
    (hcur : s.cur.isLineEnd = true) : isLineStyle (s.step settings).state = false := by
  have hlead : s.atLead = false := by
    rw [Bool.eq_false_iff]
    intro hlead
    have hbyte := s.doc.encoding.le_toNat_of_isLeadByte hlead
    have hends : s.cur = 0x0D ∨ s.cur = 0x0A := by simpa [Code.isLineEnd] using hcur
    have hbyte : 0x81 ≤ (s.cur : Nat) := hbyte
    rcases hends with hends | hends
    . rw [hends] at hbyte
      exact absurd hbyte (by decide)
    . rw [hends] at hbyte
      exact absurd hbyte (by decide)
  have hturn := turn_spec s settings
  rw [step_of_turn hlead]
  have hpos : (s.turn settings).pos = s.pos := by
    rcases hturn.pos_cases with hpos | ⟨_, hnot⟩
    . exact hpos
    . rw [hcur] at hnot
      cases hnot
  have hopen : isOpenStyle s.state = true := by
    rw [isOpenStyle, hstate, Bool.or_true]
    rfl
  have hloose := (hturn.loose_of_isLineEnd hopen hsegment (by
    rw [cur_congr hturn.onward.sameSource.text hpos]
    exact hcur)).1
  show isLineStyle (s.turn settings).state = false
  rw [Bool.eq_false_iff]
  intro hline
  rw [loose_of_isLineStyle hline] at hloose
  cases hloose

/--
A line comment that a step opens is the open token behind the step, which has gone over its first byte.
-/
theorem opens_of_step (s : Scan) (hsegment : s.pen.segment ≤ s.pos) (hsize : s.pos < s.doc.size) (hs : isLineStyle s.state = false)
    (ht : isLineStyle (s.step settings).state = true) :
    s.pos ≤ (s.step settings).pen.segment ∧ (s.step settings).pen.segment < (s.step settings).pos := by
  cases hlead : s.atLead with
  | true =>
    rw [step_of_lead hlead] at ht
    exact absurd (hs.symm.trans ht) Bool.false_ne_true
  | false =>
    have hturn := turn_spec s settings
    rw [step_of_turn hlead] at ht ⊢
    have heq := hturn.segment_of_opens hsegment hsize hs ht
    have hpos := hturn.pos_cases
    constructor
    . show s.pos ≤ (s.turn settings).pen.segment
      omega
    . show (s.turn settings).pen.segment < (s.turn settings).pos + 1
      omega

end Scan

section Run

variable {s : Scan}

theorem Visits.sameSource (h : Visits keywords doc s) : doc.SameSource s.doc :=
  (Run.onward h.1).sameSource

theorem Visits.segment_le (h : Visits keywords doc s) : s.pen.segment ≤ s.pos :=
  Run.segment_le h.1 (Nat.le_refl _)

theorem Visits.lt_size (h : Visits keywords doc s) : s.pos < s.doc.size := by
  rw [h.sameSource.size]
  exact h.2

/--
At the start of a line, the pass sees a line end if the line is empty.
-/
theorem Visits.isLineEnd_cur_iff (h : Visits keywords doc s) (hdoc : doc.WellFormed) (hlt : doc.lineStart line < doc.size)
    (hpos : s.pos = doc.lineStart line) : s.cur.isLineEnd = true ↔ doc.lineStart line = doc.lineEnd line := by
  obtain ⟨b, hb⟩ : ∃ b, doc.text[doc.lineStart line]? = some b := ⟨_, Array.getElem?_eq_getElem hlt⟩
  rw [hdoc.lineStart_eq_lineEnd_iff hlt, Scan.cur, codeAt, Document.byteAt, h.sameSource.text, hpos, hb, Option.getD_some,
    Code.isLineEnd, Bool.or_eq_true, beq_iff_eq, beq_iff_eq, Option.some.injEq, Option.some.injEq, ← UInt8.toNat_inj,
    ← UInt8.toNat_inj]
  exact or_comm

/--
What runs over a terminator is still open behind it.
-/
theorem RunsOver.exists_visits (h : RunsOver keywords doc i) (hlt : i < doc.size) :
    ∃ s, Visits keywords doc s ∧ s.pos = i ∧ isLineStyle s.state = true := by
  obtain ⟨s, hvisits, hstate, hlead, hpos⟩ := h
  have hstep : stepFrom keywords doc 0 s = { s with pos := s.pos + 2, prev := Code.blank } := Scan.step_of_lead hlead
  refine ⟨stepFrom keywords doc 0 s, ⟨hvisits.tail, ?_⟩, ?_, ?_⟩
  . rw [hstep]
    show s.pos + 2 < doc.size
    omega
  . rw [hstep]
    exact hpos
  . rw [hstep]
    exact hstate

/--
A pass comes by each line start.
-/
theorem exists_visits (keywords : Keywords) (hstart : startsLine doc.text i = true) (hlt : i < doc.size) :
    ∃ s, Visits keywords doc s ∧ s.pos = i := by
  obtain ⟨s, hrun, hle, _⟩ := exists_run keywords doc 0 i
  have hpos := hrun.pos_le hstart (Nat.zero_le i)
  exact ⟨s, ⟨hrun.mono (Nat.le_of_lt hlt), by omega⟩, by omega⟩

/--
A line comment that is open at a line start runs over the terminator in front.
-/
theorem Visits.runsOver (h : Visits keywords doc s) (hstart : startsLine doc.text s.pos = true) (hstate : isLineStyle s.state = true) :
    RunsOver keywords doc s.pos := by
  have hinvariant := Iterates.invariant (fun t => Run keywords doc 0 doc.size (.begin doc 0) t ∧ isOpenStyle t.state = true
      ∧ (t.pos = s.pos → isLineStyle t.state = true → RunsOver keywords doc s.pos)) ?_ h.1 ⟨.refl _, rfl, nofun⟩
  . exact hinvariant.2.2 rfl hstate
  . rintro t hmore ⟨hrun, hopen, _⟩
    have hvisits : Visits keywords doc t := ⟨hrun, of_decide_eq_true hmore⟩
    refine ⟨hvisits.tail, ?_⟩
    cases hlead : t.atLead with
    | true =>
      have hstep : stepFrom keywords doc 0 t = { t with pos := t.pos + 2, prev := Code.blank } := Scan.step_of_lead hlead
      rw [hstep]
      exact ⟨hopen, fun hpos hline => ⟨t, hvisits, hline, hlead, hpos⟩⟩
    | false =>
      have hstep : stepFrom keywords doc 0 t = _ := Scan.step_of_turn hlead
      have hturn := t.turn_spec (.read keywords doc.options (doc.spanOf 0 0))
      rw [hstep]
      generalize t.turn (.read keywords doc.options (doc.spanOf 0 0)) = u at *
      refine ⟨hturn.isOpenStyle hopen, fun hpos hline => ?_⟩
      -- The byte in front ends a line, where no line comment goes on.
      have hends : endsLine u.doc.text u.pos = true := by
        have hsource : doc.SameSource u.doc := hvisits.sameSource.trans hturn.onward.sameSource
        rw [hsource.text, ← startsLine_succ, show u.pos + 1 = s.pos from hpos]
        exact hstart
      have hcur : u.cur.isLineEnd = true := by
        rcases codeAt_of_endsLine hends with hcode | hcode
        . rw [Scan.cur, hcode]
          rfl
        . rw [Scan.cur, hcode]
          rfl
      have hloose := (hturn.loose_of_isLineEnd hopen hvisits.segment_le hcur).1
      rw [Scan.loose_of_isLineStyle hline] at hloose
      cases hloose

end Run

section Colour

variable {session : Session} (hsession : session.lexer = lexer) (hdoc : doc.WellFormed)
include hsession hdoc

theorem colour_session (hsize : 0 < doc.size) : session.colour doc 0 doc.size = pass session.keywords doc 0 doc.size := by
  rw [session.colour_whole hdoc hsize, hsession]
  exact colour_eq_pass_whole hdoc session.keywords hsize

theorem Run.isLineStyle_colour {s : Scan} {known : Bool} (h : Run session.keywords doc 0 doc.size (.begin doc 0) s) (hlt : i < doc.size)
    (htogether : s.Together isLineStyle known i (i + 1)) : isLineStyle ((session.colour doc 0 doc.size).styleAt i) = known := by
  obtain ⟨style, hstyle, hbytes⟩ := h.exists_styleAt_pass Scan.isKept_isLineStyle hdoc htogether hlt
  rw [colour_session hsession hdoc (Nat.zero_lt_of_lt hlt), hbytes i (Nat.le_refl i) (Nat.lt_succ_self i)]
  exact hstyle

theorem OpensLine.isLineStyle_colour (h : OpensLine session.keywords doc i) (hlt : i < doc.size) :
    isLineStyle ((session.colour doc 0 doc.size).styleAt i) = true := by
  obtain ⟨s, hvisits, hstate, hstate', rfl⟩ := h
  have hover := (s.opens_of_step hvisits.segment_le hvisits.lt_size hstate hstate').2
  exact Run.isLineStyle_colour hsession hdoc hvisits.tail hlt (.opened (Nat.le_refl _) hover hstate')

/--
A line that is not empty starts with the style of a line comment if one runs over the terminator in front of it.
-/
theorem RunsOver.isLineStyle_colour (h : RunsOver session.keywords doc (doc.lineStart line)) (hlt : doc.lineStart line < doc.size)
    (hne : doc.lineStart line ≠ doc.lineEnd line) :
    isLineStyle ((session.colour doc 0 doc.size).styleAt (doc.lineStart line)) = true := by
  obtain ⟨s, hvisits, hpos, hstate⟩ := h.exists_visits hlt
  have hcur : s.cur.isLineEnd = false := by
    rw [Bool.eq_false_iff]
    intro hends
    exact hne ((hvisits.isLineEnd_cur_iff hdoc hlt hpos).mp hends)
  obtain ⟨hpen, hsame, hover⟩ := Scan.step_of_isLineStyle hstate hcur (.read session.keywords doc.options (doc.spanOf 0 0))
  refine Run.isLineStyle_colour hsession hdoc hvisits.tail hlt (.opened ?_ ?_ ?_)
  . rw [stepFrom, hpen, ← hpos]
    exact hvisits.segment_le
  . rw [← hpos]
    exact hover
  . rw [stepFrom, hsame]
    exact hstate

/--
A line comment that the first byte of a line belongs to opens there, or comes over the terminator in front of the line.
-/
theorem opensLine_or_runsOver (hlt : doc.lineStart line < doc.size)
    (hcomment : isLineStyle ((session.colour doc 0 doc.size).styleAt (doc.lineStart line)) = true) :
    OpensLine session.keywords doc (doc.lineStart line)
      ∨ RunsOver session.keywords doc (doc.lineStart line) ∧ doc.lineStart line ≠ doc.lineEnd line := by
  have hstart := (hdoc.startsLine_lineStart (hdoc.lt_lineCount hlt)).1
  obtain ⟨s, hvisits, hpos⟩ := exists_visits session.keywords hstart hlt
  have hwell := hvisits.sameSource.wellFormed hdoc
  rcases s.together_first hwell hvisits.segment_le hvisits.lt_size (.read session.keywords doc.options (doc.spanOf 0 0)) with
    htogether | ⟨hle, htogether⟩
  . rw [hpos] at htogether
    have hnot := Run.isLineStyle_colour hsession hdoc hvisits.tail hlt htogether
    rw [hcomment] at hnot
    cases hnot
  . have hnext := Run.isLineStyle_colour hsession hdoc hvisits.tail hlt (hpos ▸ htogether)
    rw [hcomment] at hnext
    cases hstate : isLineStyle s.state with
    | true =>
      right
      refine ⟨hpos ▸ hvisits.runsOver (hpos ▸ hstart) hstate, ?_⟩
      intro hempty
      rw [s.isLineStyle_step_of_isLineEnd hvisits.segment_le hstate ((hvisits.isLineEnd_cur_iff hdoc hlt hpos).mpr hempty)] at hnext
      cases hnext
    | false =>
      obtain ⟨hat, _⟩ := s.opens_of_step hvisits.segment_le hvisits.lt_size hstate hnext.symm
      exact .inl ⟨s, hvisits, hstate, hnext.symm, Nat.le_antisymm (hpos ▸ hle) (hpos ▸ hat)⟩

/--
The first byte of a line has the style of a line comment if one opens there, and if one runs over the terminator in front of it and
the line is not empty.
-/
theorem isLineStyle_lineStart_iff (hlt : doc.lineStart line < doc.size) :
    isLineStyle ((session.colour doc 0 doc.size).styleAt (doc.lineStart line)) = true
      ↔ OpensLine session.keywords doc (doc.lineStart line)
        ∨ RunsOver session.keywords doc (doc.lineStart line) ∧ doc.lineStart line ≠ doc.lineEnd line := by
  constructor
  . exact opensLine_or_runsOver hsession hdoc hlt
  . rintro (hopens | ⟨hruns, hne⟩)
    . exact hopens.isLineStyle_colour hsession hdoc hlt
    . exact hruns.isLineStyle_colour hsession hdoc hlt hne

end Colour

end Highlight.Sql
