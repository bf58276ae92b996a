import Highlight.Proofs.Cursor.Walk

/-!
A cursor that is started at a line and one that comes by there on its way through the whole text.

No character goes on over a line start, so the running cursor stops there and shows what stands at it. Only the
character in front can differ: the running cursor remembers the one it has walked over, the other one takes the
byte in front. In a double-byte page these are two things when a lead byte stands in front of the terminator.
-/

namespace Highlight

open LineIndex

theorem Document.WellFormed.wholeLines_rest {doc : Document} (h : doc.WellFormed) {pos : Nat}
    (hstart : startsLine doc.text pos = true) (style : Style) :
    doc.wholeLines ⟨pos, doc.size - pos, style⟩ = ⟨pos, doc.size - pos, style⟩ := by
  have hle : pos ≤ doc.size := le_size_of_startsLine hstart
  rcases Nat.lt_or_eq_of_le hle with hlt | rfl
  . rw [h.wholeLines_eq hstart hlt (Nat.le_refl doc.size), show lineCeil doc.text doc.size = doc.size from lineCeil_of_isBoundary (.inr rfl)]
  . have hfloor := h.lineStart_lineOf doc.size
    rw [lineFloor_of_startsLine hstart] at hfloor
    simp [Document.wholeLines, hfloor]

/--
A character that ends where a line ends is one byte, or a lead byte of a double-byte page and the last byte of the
terminator.
-/
theorem Encoding.decodeAt_cases_of_endsLine (encoding : Encoding) {text : Array UInt8} {pos : Nat}
    (h : endsLine text (pos + (encoding.decodeAt text pos).2 - 1) = true) :
    (∃ b, text[pos]? = some b ∧ encoding.decodeAt text pos = (b.toNat, 1))
      ∨ ∃ page b trail, encoding = .doubleByte page ∧ text[pos]? = some b ∧ text[pos + 1]? = some trail
        ∧ page.isLeadByte b = true ∧ encoding.decodeAt text pos = (b.toNat * 256 + trail.toNat, 2) := by
  rcases encoding.decodeAt_cases text pos with ⟨hnone, heq⟩ | hone | ⟨_, _, hutf8, _, _⟩ | hpair
  . obtain ⟨b, hb, _⟩ := ascii_of_endsLine h
    rw [heq, Nat.add_sub_cancel, hnone] at hb
    cases hb
  . exact .inl hone
  . subst hutf8
    exact .inl (decodeAt_eq_of_endsLine .utf8 nofun h)
  . exact .inr hpair

namespace Cursor

/--
Two cursors that show the same, up to the character in front of them.
-/
structure InStep (c c' : Cursor) : Prop where
  doc : c'.doc = c.doc
  stop : c'.stop = c.stop
  pos : c'.pos = c.pos
  line : c'.line = c.line
  width : c'.width = c.width
  nextWidth : c'.nextWidth = c.nextWidth
  atLineStart : c'.atLineStart = c.atLineStart
  atLineEnd : c'.atLineEnd = c.atLineEnd
  cur : c'.cur = c.cur
  next : c'.next = c.next

variable {c c' : Cursor} {p : Nat}

theorem Settled.inStep (h : c.Settled) (h' : c'.Settled) (hdoc : c'.doc = c.doc) (hstop : c'.stop = c.stop)
    (hpos : c'.pos = c.pos) : InStep c c' := by
  have hwidth : c'.width = c.width := by rw [h.width_eq, h'.width_eq, hdoc, hpos]
  have hnext : (c'.next, c'.nextWidth) = (c.next, c.nextWidth) := by rw [h.next, h'.next, hdoc, hpos, hwidth]
  exact
    { doc := hdoc
      stop := hstop
      pos := hpos
      line := by rw [h.line, h'.line, hdoc, hpos]
      width := hwidth
      nextWidth := congrArg Prod.snd hnext
      atLineStart := by rw [h.atLineStart, h'.atLineStart, hdoc, hpos]
      atLineEnd := by rw [h.atLineEnd, h'.atLineEnd, hdoc, hpos, hwidth]
      cur := by rw [h.cur_eq, h'.cur_eq, hdoc, hpos]
      next := congrArg Prod.fst hnext }

/--
Going forward does not depend on the open token and on the character in front.
-/
theorem forward_with (c : Cursor) (segment : Nat) (state : Style) (prev : Code) :
    forward { c with pen := ⟨c.doc, segment⟩, state, prev } = { c.forward with pen := ⟨c.doc, segment⟩, state } := by
  have hmore : Cursor.more { c with pen := ⟨c.doc, segment⟩, state, prev } = c.more := rfl
  unfold forward
  rw [hmore]
  split <;> rfl

theorem InStep.eq (h : InStep c c') :
    c' = { c with pen := ⟨c.doc, c'.pen.segment⟩, state := c'.state, prev := c'.prev } := by
  obtain ⟨⟨doc, segment⟩, stop, pos, line, width, nextWidth, atLineStart, atLineEnd, state, prev, cur, next⟩ := c'
  obtain ⟨hdoc, hstop, hpos, hline, hwidth, hnextWidth, hatStart, hatEnd, hcur, hnext⟩ := h
  subst hstop hpos hline hwidth hnextWidth hatStart hatEnd hcur hnext
  rw [← hdoc]
  rfl

/--
A step forward leaves two cursors in step, and then they have walked over the same character.
-/
theorem InStep.forward (h : InStep c c') : InStep c.forward c'.forward ∧ c'.forward.prev = c.forward.prev := by
  rw [h.eq, forward_with]
  exact ⟨⟨(doc_forward c).symm, rfl, rfl, rfl, rfl, rfl, rfl, rfl, rfl, rfl⟩, rfl⟩

theorem InStep.forwardBy (h : InStep c c') (k : Nat) : InStep (c.forwardBy k) (c'.forwardBy k) := by
  induction k generalizing c c' with
  | zero => exact h
  | succ k ih => exact ih h.forward.1

theorem InStep.prev_forwardBy (h : InStep c c') {k : Nat} (hk : 0 < k) : (c'.forwardBy k).prev = (c.forwardBy k).prev := by
  obtain ⟨k, rfl⟩ : ∃ m, k = m + 1 := Nat.exists_eq_add_one.mpr hk
  rw [forwardBy_succ, forwardBy_succ]
  exact (h.forwardBy k).forward.2

/--
A cursor that may go on to the end of the text comes by each line start in front of it.
-/
theorem Settled.exists_forwardBy (h : c.Settled) (hstop : c.stop = c.doc.size + 1) (hstart : startsLine c.doc.text p = true)
    (hlt : c.pos < p) :
    ∃ n, (c.forwardBy n).Settled ∧ (c.forwardBy n).doc = c.doc ∧ (c.forwardBy n).stop = c.stop
      ∧ (c.forwardBy n).pos + (c.forwardBy n).width = p ∧ ∀ m, m ≤ n → (c.forwardBy m).pos < p := by
  have hsize : p ≤ c.doc.size := le_size_of_startsLine hstart
  obtain ⟨n, hn, hfront⟩ := h.exists_pos_eq (.inl (.inl hstart)) (Nat.le_of_lt hlt) (by omega)
  obtain ⟨n, rfl⟩ : ∃ m, n = m + 1 := by
    cases n with
    | zero => exact absurd hn (Nat.ne_of_lt hlt)
    | succ m => exact ⟨m, rfl⟩
  have hmore : ∀ m, m ≤ n → (c.forwardBy m).more = true := by
    intro m hm
    have := hfront m (Nat.lt_succ_of_le hm)
    simp only [more, decide_eq_true_eq, stop_forwardBy, hstop]
    omega
  have hsettled : (c.forwardBy n).Settled := h.forwardBy_of_more (hmore n (Nat.le_refl n))
  rw [forwardBy_succ, pos_forward (hmore n (Nat.le_refl n))] at hn
  exact ⟨n, hsettled, doc_forwardBy c n, stop_forwardBy c n, hn, fun m hm => hfront m (Nat.lt_succ_of_le hm)⟩

/--
Of a character in front of a line start, the last byte is all there is, unless it is a pair of bytes.
-/
theorem Settled.cur_eq_byte_iff (h : c.Settled) (hstart : startsLine c.doc.text (c.pos + c.width) = true) :
    c.cur = (c.doc.byteAt (c.pos + c.width - 1) 0).toNat ↔ c.width = 1 := by
  have hwidth := h.width_pos
  have hend := endsLine_of_startsLine hstart (by omega)
  have hcur := h.cur
  rw [h.width_eq] at hend
  rcases Encoding.decodeAt_cases_of_endsLine c.doc.encoding hend with ⟨b, hb, heq⟩ | ⟨page, b, trail, _, _, htrail, hlead, heq⟩
  . rw [Document.decodeAt, heq, Prod.mk.injEq] at hcur
    rw [hcur.1, hcur.2, Nat.add_sub_cancel, Document.byteAt, hb]
    exact ⟨fun _ => rfl, fun _ => rfl⟩
  . have := CodePage.le_toNat_of_isLeadByte hlead
    rw [Document.decodeAt, heq, Prod.mk.injEq] at hcur
    rw [hcur.1, hcur.2, Document.byteAt, show c.pos + 2 - 1 = c.pos + 1 from rfl, htrail, Option.getD_some]
    constructor
    . intro hsame
      have hzero : b.toNat * 256 + trail.toNat = trail.toNat := hsame
      omega
    . exact fun htwo => absurd htwo (by decide)

theorem Settled.lead_of_width (h : c.Settled) (hstart : startsLine c.doc.text (c.pos + c.width) = true) (hwidth : c.width ≠ 1) :
    c.width = 2 ∧ c.doc.encoding.isLeadByte (c.doc.byteAt c.pos 0) = true := by
  have hend := endsLine_of_startsLine hstart (Nat.add_pos_right _ h.width_pos)
  have hcur := h.width_eq
  rw [h.width_eq] at hend
  rcases Encoding.decodeAt_cases_of_endsLine c.doc.encoding hend with ⟨b, hb, heq⟩ | ⟨page, b, trail, hpage, hb, _, hlead, heq⟩
  . rw [Document.decodeAt, heq] at hcur
    exact absurd hcur hwidth
  . rw [Document.decodeAt, heq] at hcur
    refine ⟨hcur, ?_⟩
    rw [hpage, Document.byteAt, hb]
    exact hlead

variable {doc : Document}

theorem pos_start_rest (hdoc : doc.WellFormed) (hstart : startsLine doc.text p = true) (style : Style) :
    (start doc ⟨p, doc.size - p, style⟩).pos = p := by
  show (doc.wholeLines _).start = p
  rw [hdoc.wholeLines_rest hstart]

theorem stop_start_rest (hdoc : doc.WellFormed) (hstart : startsLine doc.text p = true) (style : Style) :
    (start doc ⟨p, doc.size - p, style⟩).stop = doc.size + 1 := by
  have hle : p ≤ doc.size := le_size_of_startsLine hstart
  have hstop : (⟨p, doc.size - p, style⟩ : Span).stop = doc.size := Nat.add_sub_cancel' hle
  show (if (doc.wholeLines _).stop == doc.size then (doc.wholeLines _).stop + 1 else (doc.wholeLines _).stop) = doc.size + 1
  rw [hdoc.wholeLines_rest hstart, hstop, if_pos (beq_self_eq_true _)]

theorem prev_start_rest (hdoc : doc.WellFormed) (hstart : startsLine doc.text p = true) (hpos : 0 < p) (style : Style) :
    (start doc ⟨p, doc.size - p, style⟩).prev = (doc.byteAt (p - 1) 0).toNat := by
  show (if 0 < (doc.wholeLines _).start then (doc.byteAt ((doc.wholeLines _).start - 1) 0).toNat else 0) = _
  rw [hdoc.wholeLines_rest hstart, if_pos hpos]

/--
Two cursors over one text to its end, the front one of which comes by the line start that the other one stands at.
-/
theorem Settled.meets (h : c.Settled) (h' : c'.Settled) (hdoc : c'.doc = c.doc) (hstop : c.stop = c.doc.size + 1)
    (hstop' : c'.stop = c.stop) (hpos : c.pos < c'.pos) (hstart : startsLine c.doc.text c'.pos = true)
    (hprev : c'.prev = (c.doc.byteAt (c'.pos - 1) 0).toNat) :
    ∃ n, (∀ m, m ≤ n → (c.forwardBy m).pos < c'.pos) ∧ InStep (c.forwardBy (n + 1)) c'
      ∧ (c'.prev = (c.forwardBy (n + 1)).prev ↔ (c.forwardBy n).width = 1)
      ∧ ((c.forwardBy n).width ≠ 1 → 2 ≤ c'.pos ∧ c.doc.encoding.isLeadByte (c.doc.byteAt (c'.pos - 2) 0) = true) := by
  obtain ⟨n, hn, hdocn, hstopn, hend, hfront⟩ := h.exists_forwardBy hstop hstart hpos
  have hlt := hfront n (Nat.le_refl n)
  refine ⟨n, hfront, ?_⟩
  rw [forwardBy_succ]
  clear hfront
  generalize c.forwardBy n = d at *
  have hsize : c'.pos ≤ c.doc.size := le_size_of_startsLine hstart
  have hmore : d.more = true := decide_eq_true (by omega)
  rw [← hdocn, ← hend] at hstart
  refine ⟨?_, ?_, fun hwidth => ?_⟩
  . exact (hn.forward hmore).inStep h' (by rw [doc_forward, hdocn, hdoc]) (by rw [stop_forward, hstopn, hstop'])
      (by rw [pos_forward hmore, hend])
  . rw [← hn.cur_eq_byte_iff hstart, prev_forward hmore, hprev, hend, hdocn]
    exact eq_comm
  . obtain ⟨htwo, hlead⟩ := hn.lead_of_width hstart hwidth
    have hbefore : d.pos = c'.pos - 2 := by omega
    rw [hdocn, hbefore] at hlead
    exact ⟨by omega, hlead⟩

/--
A cursor that is started at a line shows, there and all the way on, what the one that was started at the front of
the text shows when it comes by. Only there, the character in front of them is another one if the running cursor
has walked over a pair of bytes, a lead byte and the last byte of the terminator.
-/
theorem restarted_inStep_running (hdoc : doc.WellFormed) (hpos : 0 < p) (hstart : startsLine doc.text p = true)
    (style style' : Style) :
    let running := start doc ⟨0, doc.size, style⟩
    let restarted := start doc ⟨p, doc.size - p, style'⟩
    ∃ n, (∀ m, m ≤ n → (running.forwardBy m).pos < p) ∧ (running.forwardBy (n + 1)).pos = p
      ∧ (∀ k, InStep (running.forwardBy (n + 1 + k)) (restarted.forwardBy k))
      ∧ (∀ k, 0 < k → (restarted.forwardBy k).prev = (running.forwardBy (n + 1 + k)).prev)
      ∧ (restarted.prev = (running.forwardBy (n + 1)).prev ↔ (running.forwardBy n).width = 1)
      ∧ ((running.forwardBy n).width ≠ 1 → 2 ≤ p ∧ doc.encoding.isLeadByte (doc.byteAt (p - 2) 0) = true) := by
  dsimp only
  have hstop : (start doc ⟨0, doc.size, style⟩).stop = doc.size + 1 := stop_start_rest hdoc startsLine_zero style
  have hfirst : (start doc ⟨0, doc.size, style⟩).pos = 0 := pos_start_rest hdoc startsLine_zero style
  have hpos' := pos_start_rest hdoc hstart style'
  have hprev' := prev_start_rest hdoc hstart hpos style'
  obtain ⟨n, hfront, hmeet, hprev, hwidth⟩ := (settled_start doc hdoc ⟨0, doc.size, style⟩).meets
    (settled_start doc hdoc ⟨p, doc.size - p, style'⟩) rfl hstop ((stop_start_rest hdoc hstart style').trans hstop.symm)
    (by omega) (by rw [hpos']; exact hstart) (by rw [hpos']; exact hprev')
  rw [hpos'] at hfront hwidth
  refine ⟨n, hfront, hmeet.pos.symm.trans hpos', fun k => ?_, fun k hk => ?_, hprev, hwidth⟩
  . rw [forwardBy_add]
    exact hmeet.forwardBy k
  . rw [forwardBy_add]
    exact hmeet.prev_forwardBy hk

/--
The second line of a text in UTF-8, behind a character of two bytes and a line feed.
-/
theorem restarted_inStep_running_second_line :
    let doc := (Document.ofText #[0xC3, 0xA9, 0x0A, 0x78]).setEncoding .utf8
    ∃ n, ((start doc ⟨0, 4, 0⟩).forwardBy (n + 1)).pos = 3
      ∧ InStep ((start doc ⟨0, 4, 0⟩).forwardBy (n + 1)) (start doc ⟨3, 1, 0⟩) := by
  have hdoc : ((Document.ofText #[0xC3, 0xA9, 0x0A, 0x78]).setEncoding .utf8).WellFormed :=
    Document.wellFormed_fresh #[0xC3, 0xA9, 0x0A, 0x78] .utf8 .empty
  obtain ⟨n, _, hpos, hstep, _⟩ := restarted_inStep_running (p := 3) hdoc (by decide) (by decide +kernel) 0 0
  exact ⟨n, hpos, hstep 0⟩

/--
In code page 932, the line feed behind a lead byte is a part of a character and yet ends the line. A cursor that is
started behind it sees a line feed in front, one that comes by sees the character.
-/
theorem prev_restarted_ne_prev_running :
    let doc := (Document.ofText #[0x81, 0x0A, 0x78]).setEncoding (.doubleByte .shiftJis)
    let running := (start doc ⟨0, doc.size, 0⟩).forwardBy 1
    let restarted := start doc ⟨2, doc.size - 2, 0⟩
    startsLine doc.text 2 = true ∧ running.pos = 2 ∧ restarted.pos = 2 ∧ restarted.prev ≠ running.prev := by
  decide +kernel

end Cursor

end Highlight
