import Highlight.Proofs.Sql.Turn

/-!
What holds of every scan of SQL that began at the start of the text.
-/

namespace Highlight

open LineIndex

/--
A pen that has gone on, and has coloured nothing but what it went over.
-/
structure Pen.Onward (pen pen' : Pen) : Prop where
  sameSource : pen.doc.SameSource pen'.doc
  segment_le : pen.segment ≤ pen'.segment
  styles : ∀ i : Nat, i < pen.segment ∨ pen'.segment ≤ i → pen'.doc.styles[i]? = pen.doc.styles[i]?
  lineStates : pen'.doc.lineStates = pen.doc.lineStates
  levels : pen'.doc.levels = pen.doc.levels

namespace Pen.Onward

variable {pen pen' pen'' : Pen}

theorem refl (pen : Pen) : pen.Onward pen :=
  ⟨.refl _, Nat.le_refl _, fun _ _ => rfl, rfl, rfl⟩

theorem trans (h : pen.Onward pen') (h' : pen'.Onward pen'') : pen.Onward pen'' where
  sameSource := h.sameSource.trans h'.sameSource
  segment_le := Nat.le_trans h.segment_le h'.segment_le
  styles := by
    intro i hi
    have := h.segment_le
    have := h'.segment_le
    rw [h'.styles i (by omega), h.styles i (by omega)]
  lineStates := h'.lineStates.trans h.lineStates
  levels := h'.levels.trans h.levels

theorem colourTo (pen : Pen) (stop : Nat) (style : Style) : pen.Onward (pen.colourTo stop style) where
  sameSource := Cursor.sameSource_colourTo pen stop style
  segment_le := by
    rw [segment_colourTo]
    exact Nat.le_max_left _ _
  styles := by
    intro i hi
    rw [segment_colourTo] at hi
    rw [getElem?_styles_colourTo, if_neg (by omega)]
  lineStates := lineStates_colourTo pen stop style
  levels := levels_colourTo pen stop style

end Pen.Onward

namespace Sql.Scan

variable {s t : Scan}

section Turn

theorem cur_congr (htext : t.doc.text = s.doc.text) (hpos : t.pos = s.pos) : t.cur = s.cur := by
  rw [cur, cur, codeAt, codeAt, Document.byteAt, Document.byteAt, htext, hpos]

theorem Enters.onward (h : s.Enters t) : s.pen.Onward t.pen := by
  cases h with
  | start style _ => exact .refl _
  | operator _ => exact .trans (.colourTo _ _ _) (.colourTo _ _ _)
  | blank => exact .refl _

theorem Enters.pos (h : s.Enters t) : t.pos = s.pos := by
  cases h with
  | start style _ => rfl
  | operator _ => rfl
  | blank => rfl

theorem Turn.onward (h : s.Turn t) : s.pen.Onward t.pen := by
  cases h with
  | stay _ => exact .refl _
  | skip _ _ => exact .refl _
  | start style _ _ => exact .colourTo _ _ _
  | operator _ _ => exact .trans (.colourTo _ _ _) (.colourTo _ _ _)
  | keyword _ _ => exact .colourTo _ _ _
  | keywordEnd style _ _ => exact .colourTo _ _ _
  | leave stop style pos _ henters => exact .trans (.colourTo _ _ _) henters.onward

/--
A turn goes over one byte at most, and not over the end of a line.
-/
theorem Turn.pos_cases (h : s.Turn t) : t.pos = s.pos ∨ t.pos = s.pos + 1 ∧ s.cur.isLineEnd = false := by
  cases h with
  | stay _ => exact .inl rfl
  | skip _ hcur => exact .inr ⟨rfl, hcur⟩
  | start style _ _ => exact .inl rfl
  | operator _ _ => exact .inl rfl
  | keyword _ _ => exact .inl rfl
  | keywordEnd style _ _ => exact .inl rfl
  | leave stop style pos hleaves henters =>
    rw [henters.pos]
    cases hleaves with
    | word _ => exact .inl rfl
    | line _ => exact .inl rfl
    | keyword _ => exact .inl rfl
    | comment _ _ => exact .inl rfl
    | string _ hcur => exact .inr ⟨rfl, hcur⟩

theorem Enters.isOpenStyle (h : s.Enters t) : isOpenStyle t.state = true := by
  cases h with
  | start style hstart => exact (starts_of_starting? hstart).opened
  | operator _ => rfl
  | blank => rfl

theorem Turn.isOpenStyle (h : s.Turn t) (hs : isOpenStyle s.state = true) : isOpenStyle t.state = true := by
  cases h with
  | stay _ => exact hs
  | skip _ _ => exact hs
  | start style _ hstart => exact (starts_of_starting? hstart).opened
  | operator _ _ => exact hs
  | keyword _ _ => rfl
  | keywordEnd style _ _ => rfl
  | leave stop style pos _ henters => exact henters.isOpenStyle

theorem Leaves.stop_cases {stop : Nat} {style : Highlight.Style} {pos : Nat} (h : s.Leaves stop style pos) :
    stop = pos ∨ stop = pos + 1 ∧ s.pos = pos ∧ s.cur.isLineEnd = false := by
  cases h with
  | word _ => exact .inl rfl
  | line _ => exact .inl rfl
  | keyword _ => exact .inl rfl
  | comment _ hcur => exact .inr ⟨rfl, rfl, isLineEnd_of_test (fun c => Code.is c '/') rfl rfl hcur⟩
  | string _ _ => exact .inl rfl

theorem Leaves.pos_le {stop : Nat} {style : Highlight.Style} {pos : Nat} (h : s.Leaves stop style pos) :
    s.pos ≤ pos ∧ pos ≤ s.pos + 1 := by
  cases h with
  | word _ => exact ⟨Nat.le_refl _, Nat.le_succ _⟩
  | line _ => exact ⟨Nat.le_refl _, Nat.le_succ _⟩
  | keyword _ => exact ⟨Nat.le_refl _, Nat.le_succ _⟩
  | comment _ _ => exact ⟨Nat.le_refl _, Nat.le_succ _⟩
  | string _ _ => exact ⟨Nat.le_succ _, Nat.le_refl _⟩

theorem Enters.segment_le (h : s.Enters t) (hs : s.pen.segment ≤ s.pos + 1) : t.pen.segment ≤ t.pos + 1 := by
  cases h with
  | start style _ => exact hs
  | operator _ =>
    show ((s.pen.colourTo s.pos Style.default).colourTo (s.pos + 1) Style.operator).segment ≤ s.pos + 1
    rw [Pen.segment_colourTo, Pen.segment_colourTo]
    omega
  | blank => exact hs

theorem Turn.segment_le (h : s.Turn t) (hs : s.pen.segment ≤ s.pos) : t.pen.segment ≤ t.pos + 1 := by
  cases h with
  | stay _ => omega
  | skip _ _ => exact Nat.le_succ_of_le (Nat.le_succ_of_le hs)
  | start style _ _ =>
    show (s.pen.colourTo s.pos s.state).segment ≤ s.pos + 1
    rw [Pen.segment_colourTo]
    omega
  | operator _ _ =>
    show ((s.pen.colourTo s.pos Style.default).colourTo (s.pos + 1) Style.operator).segment ≤ s.pos + 1
    rw [Pen.segment_colourTo, Pen.segment_colourTo]
    omega
  | keyword _ _ =>
    show (s.pen.colourTo s.pos s.state).segment ≤ s.pos + 1
    rw [Pen.segment_colourTo]
    omega
  | keywordEnd style _ _ =>
    show (s.pen.colourTo s.pos style).segment ≤ s.pos + 1
    rw [Pen.segment_colourTo]
    omega
  | leave stop style pos hleaves henters =>
    refine henters.segment_le ?_
    show (s.pen.colourTo stop style).segment ≤ pos + 1
    have := hleaves.pos_le
    rw [Pen.segment_colourTo]
    rcases hleaves.stop_cases with hstop | ⟨hstop, _, _⟩ <;> omega

/--
At the end of a line, the open token can go on behind it, and has begun in front.
-/
theorem Turn.loose_of_isLineEnd (h : s.Turn t) (hopen : Sql.isOpenStyle s.state = true) (hs : s.pen.segment ≤ s.pos)
    (hline : t.cur.isLineEnd = true) :
    loose t.state = true ∧ t.pen.segment ≤ t.pos := by
  have hcur : t.pos = s.pos → s.cur.isLineEnd = true := by
    intro hpos
    rw [cur_congr h.onward.sameSource.text hpos] at hline
    exact hline
  cases h with
  | stay hloose => exact ⟨hloose hopen hline, hs⟩
  | skip hstate _ =>
    refine ⟨?_, Nat.le_succ_of_le hs⟩
    show loose s.state = true
    rcases hstate with hstate | hstate <;> rw [hstate] <;> rfl
  | start style _ hstart =>
    have := (starts_of_starting? hstart).cur
    rw [hcur rfl] at this
    cases this
  | operator _ hop =>
    have := isLineEnd_of_test Code.isOperator rfl rfl hop
    rw [hcur rfl] at this
    cases this
  | keyword _ hat =>
    have := isLineEnd_of_test (fun c => Code.is c '@') rfl rfl hat
    rw [hcur rfl] at this
    cases this
  | keywordEnd style _ _ =>
    refine ⟨rfl, ?_⟩
    show (s.pen.colourTo s.pos style).segment ≤ s.pos
    rw [Pen.segment_colourTo]
    omega
  | leave stop style pos hleaves henters =>
    have hpos := henters.pos
    have hend := cur_congr henters.onward.sameSource.text hpos
    rw [hend] at hline
    cases henters with
    | start style' hstart =>
      have := (starts_of_starting? hstart).cur
      rw [hline] at this
      cases this
    | operator hop =>
      have := isLineEnd_of_test Code.isOperator rfl rfl hop
      rw [hline] at this
      cases this
    | blank =>
      refine ⟨rfl, ?_⟩
      have := hleaves.pos_le
      show (s.pen.colourTo stop style).segment ≤ pos
      rw [Pen.segment_colourTo]
      rcases hleaves.stop_cases with hstop | ⟨_, heq, hnot⟩
      . omega
      . have := hcur heq.symm
        rw [hnot] at this
        cases this

end Turn

/--
Whether the byte in front of the segment is the end of a documentation keyword.
-/
def KeywordBefore (s : Scan) : Prop :=
  0 < s.pen.segment ∧ isDocKeyword (s.doc.styleAt (s.pen.segment - 1)) = true

/--
The segment of a comment starts in the line in which the comment or, right behind a keyword, the segment starts.
-/
def Opened (s : Scan) : Prop :=
  s.state = Style.comment ∨ s.state = Style.commentDoc → endsLine s.doc.text s.pen.segment = false ∨ s.KeywordBefore

/--
What holds of a scan of a pass that began at the start of the text.
-/
structure Sound (s : Scan) : Prop where
  singleByte : s.SingleByte
  wellFormed : s.doc.WellFormed
  isOpenStyle : isOpenStyle s.state = true
  segment_le : s.pen.segment ≤ s.pos
  keyword : s.state = Style.docKeyword → s.pen.segment < s.pos
  opened : s.Opened
  prev : 0 < s.pos → s.prev = codeAt s.doc (s.pos - 1)
  /-- What is open at a line start has begun in front of it. -/
  loose : startsLine s.doc.text s.pos = true → loose s.state = true ∧ (0 < s.pos → s.pen.segment < s.pos)

section Sound

theorem SingleByte.of_sameSource (h : s.SingleByte) (hsame : s.doc.SameSource t.doc) : t.SingleByte := by
  intro b
  rw [hsame.encoding]
  exact h b

theorem endsLine_cur (h : s.cur.isLineEnd = false) : endsLine s.doc.text s.pos = false :=
  endsLine_of_codeAt h

theorem opened_of_endsLine (h : endsLine s.doc.text s.pen.segment = false) : s.Opened :=
  fun _ => .inl h

theorem Turn.opened (h : s.Turn t) (hs : s.Sound) (hlt : s.pos < s.doc.size) : t.Opened := by
  have hsegment := hs.segment_le
  cases h with
  | stay _ => exact hs.opened
  | skip _ _ => exact hs.opened
  | start style _ hstart =>
    refine opened_of_endsLine ?_
    show endsLine (s.pen.colourTo s.pos s.state).doc.text (s.pen.colourTo s.pos s.state).segment = false
    have hlt : s.pos < s.pen.doc.size := hlt
    rw [(Cursor.sameSource_colourTo _ _ _).text, Pen.segment_colourTo,
      show max s.pen.segment (min s.pos s.pen.doc.size) = s.pos by omega]
    exact endsLine_cur (starts_of_starting? hstart).cur
  | operator hstate _ =>
    rintro (h | h)
    . rw [show s.state = _ from h] at hstate
      cases hstate
    . rw [show s.state = _ from h] at hstate
      cases hstate
  | keyword _ _ =>
    rintro (h | h)
    . cases h
    . cases h
  | keywordEnd style hstate hstyle =>
    have hbegun := hs.keyword hstate
    have hlt : s.pos < s.pen.doc.size := hlt
    have hsize : s.pos - 1 < s.pen.doc.styles.size := by
      rw [show s.pen.doc.styles.size = s.pen.doc.size from hs.wellFormed.styles]
      omega
    have hpos : (s.pen.colourTo s.pos style).segment = s.pos := by
      rw [Pen.segment_colourTo]
      omega
    refine fun _ => .inr ⟨?_, ?_⟩
    . show 0 < (s.pen.colourTo s.pos style).segment
      omega
    . show isDocKeyword ((s.pen.colourTo s.pos style).doc.styleAt ((s.pen.colourTo s.pos style).segment - 1)) = true
      rw [hpos, Document.styleAt, Pen.getElem?_styles_colourTo, if_pos (by omega), Array.getElem?_eq_getElem hsize]
      exact hstyle
  | leave stop style pos hleaves henters =>
    have hlt : s.pos < s.pen.doc.size := hlt
    have hpos := hleaves.pos_le
    have hsegment' : (s.pen.colourTo stop style).segment = stop := by
      rw [Pen.segment_colourTo]
      rcases hleaves.stop_cases with heq | ⟨heq, heq', _⟩ <;> omega
    cases henters with
    | start style' hstart =>
      have hstarts := starts_of_starting? hstart
      intro hstate
      refine .inl ?_
      show endsLine (s.pen.colourTo stop style).doc.text (s.pen.colourTo stop style).segment = false
      have hcur : endsLine (s.pen.colourTo stop style).doc.text pos = false := endsLine_of_codeAt hstarts.cur
      have hnext : endsLine (s.pen.colourTo stop style).doc.text (pos + 1) = false :=
        endsLine_of_codeAt (hstarts.next hstate)
      rw [(Cursor.sameSource_colourTo _ _ _).text] at hcur hnext ⊢
      rw [hsegment']
      rcases hleaves.stop_cases with heq | ⟨heq, _, _⟩
      . rw [heq, hcur]
      . rw [heq, hnext]
    | operator _ => rintro (h | h) <;> cases h
    | blank => rintro (h | h) <;> cases h

theorem Turn.keyword_iff (h : s.Turn t) (hstate : t.state = Style.docKeyword) (hs : s.pen.segment ≤ s.pos)
    (hkeyword : s.state = Style.docKeyword → s.pen.segment < s.pos) : t.pen.segment < t.pos + 1 := by
  cases h with
  | stay _ => exact Nat.lt_succ_of_lt (hkeyword hstate)
  | skip _ _ => exact Nat.lt_succ_of_le (Nat.le_succ_of_le hs)
  | start style _ hstart => exact absurd hstate (starts_of_starting? hstart).ne_keyword
  | operator hdefault _ =>
    rw [show s.state = _ from hstate] at hdefault
    cases hdefault
  | keyword _ _ =>
    show (s.pen.colourTo s.pos s.state).segment < s.pos + 1
    rw [Pen.segment_colourTo]
    omega
  | keywordEnd style _ _ => cases hstate
  | leave stop style pos _ henters =>
    cases henters with
    | start style' hstart => exact absurd hstate (starts_of_starting? hstart).ne_keyword
    | operator _ => cases hstate
    | blank => cases hstate

theorem Sound.step (hs : s.Sound) (hlt : s.pos < s.doc.size) (settings : Settings) : (s.step settings).Sound := by
  have hturn := turn_spec s settings
  have hsegment := hturn.segment_le hs.segment_le
  have honward := hturn.onward
  rw [step_eq hs.singleByte]
  generalize s.turn settings = t at *
  exact
    { singleByte := hs.singleByte.of_sameSource honward.sameSource
      wellFormed := honward.sameSource.wellFormed hs.wellFormed
      isOpenStyle := hturn.isOpenStyle hs.isOpenStyle
      segment_le := hsegment
      keyword := fun hstate => hturn.keyword_iff hstate hs.segment_le hs.keyword
      opened := hturn.opened hs hlt
      prev := fun _ => rfl
      loose := by
        intro hline
        have hline : startsLine t.doc.text (t.pos + 1) = true := hline
        have hcur : t.cur.isLineEnd = true := by
          rw [← Bool.not_eq_false]
          intro hcur
          rw [startsLine_succ, endsLine_cur hcur] at hline
          cases hline
        obtain ⟨hloose, hle⟩ := hturn.loose_of_isLineEnd hs.isOpenStyle hs.segment_le hcur
        exact ⟨hloose, fun _ => Nat.lt_succ_of_le hle⟩ }

end Sound

end Sql.Scan

end Highlight
