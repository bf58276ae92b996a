import Highlight.Proofs.Cursor.Alike

/-!
The walk of a cursor through whole lines. It shows what stands in the text at each place, comes by each line start once,
and ends with the lines.
-/

namespace Highlight

open LineIndex

theorem Document.WellFormed.wholeLines_stop {doc : Document} (h : doc.WellFormed) (span : Span) :
    (doc.wholeLines span).stop = lineCeil doc.text (min (min span.start doc.size + span.length) doc.size) := by
  have hfloor := lineFloor_le doc.text (min span.start doc.size)
  have hle : min span.start doc.size ≤ min (min span.start doc.size + span.length) doc.size := by omega
  have hsize : min (min span.start doc.size + span.length) doc.size ≤ doc.text.size := Nat.min_le_right _ _
  have hceil := le_lineCeil hsize
  have hstart := startsLine_lineFloor doc.text (min span.start doc.size)
  simp only [Span.stop, wholeLines]
  rw [h.lineStart_lineOf, h.lineStart_lineOf]
  generalize min (min span.start doc.size + span.length) doc.size = stop at *
  generalize lineFloor doc.text (min span.start doc.size) = start at *
  cases hline : startsLine doc.text stop with
  | true =>
    rw [lineFloor_of_startsLine hline, lineCeil_of_isBoundary (.inl hline)]
    simp only [bne_self_eq_false, Bool.and_false, Bool.false_eq_true, if_false]
    omega
  | false =>
    -- The range starts at a line start, so it ends behind that, and is widened up to the next one.
    have hlt : start < stop := by
      apply Nat.lt_of_le_of_ne (by omega)
      intro heq
      rw [heq, hline] at hstart
      cases hstart
    have hne : lineFloor doc.text stop ≠ stop := by
      intro heq
      rw [← heq, startsLine_lineFloor] at hline
      cases hline
    rw [h.lineCeil_eq hline]
    simp only [hlt, bne_iff_ne.mpr hne, decide_true, Bool.and_true, if_true]
    omega

theorem Document.WellFormed.isBoundary_wholeLines_stop {doc : Document} (h : doc.WellFormed) (span : Span) :
    IsBoundary doc.text (doc.wholeLines span).stop := by
  rw [h.wholeLines_stop]
  apply isBoundary_lineCeil
  apply Nat.min_le_right

namespace Cursor

variable {c : Cursor} {doc : Document} {q m n : Nat}

theorem forwardBy_succ (c : Cursor) (k : Nat) : c.forwardBy (k + 1) = (c.forwardBy k).forward := by
  induction k generalizing c with
  | zero => rfl
  | succ k ih => exact ih c.forward

theorem forwardBy_add (c : Cursor) (k k' : Nat) : c.forwardBy (k + k') = (c.forwardBy k).forwardBy k' := by
  induction k generalizing c with
  | zero => rw [Nat.zero_add]; rfl
  | succ k ih => rw [Nat.add_right_comm]; exact ih c.forward

theorem doc_forwardBy (c : Cursor) (n : Nat) : (c.forwardBy n).doc = c.doc := by
  induction n with
  | zero => rfl
  | succ n ih =>
    rw [forwardBy_succ, doc_forward]
    exact ih

theorem stop_forwardBy (c : Cursor) (n : Nat) : (c.forwardBy n).stop = c.stop := by
  induction n with
  | zero => rfl
  | succ n ih =>
    rw [forwardBy_succ, stop_forward]
    exact ih

theorem pos_le_forwardBy (c : Cursor) (n : Nat) : c.pos ≤ (c.forwardBy n).pos := by
  induction n with
  | zero => exact Nat.le_refl _
  | succ n ih =>
    rw [forwardBy_succ]
    apply Nat.le_trans ih
    generalize c.forwardBy n = d
    cases hmore : d.more with
    | true =>
      rw [pos_forward hmore]
      apply Nat.le_add_right
    | false =>
      rw [forward, hmore]
      exact Nat.le_refl _

theorem more_of_le (hle : m ≤ n) (hmore : (c.forwardBy n).more = true) : (c.forwardBy m).more = true := by
  obtain ⟨k, rfl⟩ := Nat.exists_eq_add_of_le hle
  have hpos := pos_le_forwardBy (c.forwardBy m) k
  rw [← forwardBy_add] at hpos
  simp only [more, decide_eq_true_eq, stop_forwardBy] at hmore ⊢
  omega

theorem Settled.forwardBy (h : c.Settled) (hmore : ∀ m, m < n → (c.forwardBy m).more = true) : (c.forwardBy n).Settled := by
  induction n with
  | zero => exact h
  | succ n ih =>
    rw [forwardBy_succ]
    apply Settled.forward
    . apply ih
      intro m hm
      apply hmore
      omega
    . apply hmore
      omega

theorem Settled.forwardBy_of_more (h : c.Settled) (hmore : (c.forwardBy n).more = true) : (c.forwardBy n).Settled := by
  apply h.forwardBy
  intro m hm
  exact more_of_le (Nat.le_of_lt hm) hmore

theorem Settled.pos_lt_forwardBy (h : c.Settled) (hmore : (c.forwardBy m).more = true) (hlt : m < n) :
    (c.forwardBy m).pos < (c.forwardBy n).pos := by
  obtain ⟨k, rfl⟩ := Nat.exists_eq_add_of_le (Nat.succ_le_of_lt hlt)
  have hwidth := (h.forwardBy_of_more hmore).width_pos
  have hrest := pos_le_forwardBy (c.forwardBy (m + 1)) k
  rw [← forwardBy_add, forwardBy_succ c m, pos_forward hmore] at hrest
  rw [Nat.succ_eq_add_one]
  omega

/--
No character goes on over a line start, over the end of the text, or over the place behind it.
-/
theorem Settled.pos_add_width_le_of_lt (h : c.Settled) (hq : IsBoundary c.doc.text q ∨ q = c.doc.size + 1) (hlt : c.pos < q) :
    c.pos + c.width ≤ q := by
  rcases hq with (hstart | hsize) | hbehind
  . rw [h.width_eq]
    exact Encoding.decodeAt_le_of_startsLine c.doc.encoding hstart hlt
  . subst hsize
    exact h.pos_add_width_le_size hlt
  . subst hbehind
    apply h.pos_add_width_le
    omega

/--
A walk comes by each of these places that it does not end in front of.
-/
theorem Settled.exists_pos_eq (h : c.Settled) (hq : IsBoundary c.doc.text q ∨ q = c.doc.size + 1) (hle : c.pos ≤ q)
    (hstop : q ≤ c.stop) : ∃ n, (c.forwardBy n).pos = q ∧ ∀ m, m < n → (c.forwardBy m).pos < q := by
  induction hk : q - c.pos using Nat.strongRecOn generalizing c with
  | ind k ih =>
    rcases Nat.eq_or_lt_of_le hle with heq | hlt
    . refine ⟨0, heq, ?_⟩
      intro m hm
      omega
    -- The character that the walk is at does not go on over `q`.
    . have hmore : c.more = true := by
        simp only [more, decide_eq_true_eq]
        omega
      have hwidth := h.width_pos
      have hnext := h.pos_add_width_le_of_lt hq hlt
      have hpos := pos_forward hmore
      obtain ⟨n, hn, hfront⟩ := ih (q - c.forward.pos) (by omega) (h.forward hmore) (by rwa [doc_forward]) (by omega)
        (by rwa [stop_forward]) rfl
      refine ⟨n + 1, hn, ?_⟩
      intro m hm
      cases m with
      | zero => exact hlt
      | succ m =>
        apply hfront
        omega

/--
What a cursor shows on a text: its line, the characters at and behind its place, and whether they are the first and the
last one of the line. On the last line, the place behind the last character is the one that ends the line.
-/
structure Follows (doc : Document) (c : Cursor) : Prop where
  doc_eq : c.doc = doc
  line : c.line = doc.lineOf c.pos
  atLineStart : c.atLineStart = true ↔ c.pos = doc.lineStart c.line
  cur : (c.cur, c.width) = doc.decodeAt c.pos
  next : c.next = (doc.decodeAt (c.pos + c.width)).1
  atLineEnd : c.atLineEnd = true
    ↔ if c.line + 1 < doc.lineCount then doc.lineOf (c.pos + c.width) = c.line + 1 else c.pos = doc.size

theorem Settled.atLineEnd_iff (h : c.Settled) (hpos : c.pos ≤ c.doc.size) : c.atLineEnd = true
    ↔ if c.doc.lineOf c.pos + 1 < c.doc.lineCount then c.doc.lineOf (c.pos + c.width) = c.doc.lineOf c.pos + 1
      else c.pos = c.doc.size := by
  have hcount : c.doc.lineCount = breaksBefore c.doc.text c.doc.text.size + 1 := by
    rw [Document.lineCount, h.wellFormed.lines, count_ofText]
  rw [h.atLineEnd, Bool.or_eq_true, decide_eq_true_eq, hcount, h.wellFormed.lineOf_eq, h.wellFormed.lineOf_eq]
  rcases Nat.eq_or_lt_of_le hpos with heq | hlt
  . rw [heq, Document.size]
    simp
  . have hnext := h.breaksBefore_forward hlt
    have hlast := breaksBefore_size_le c.doc.text (c.pos + c.width)
    cases hends : endsLine c.doc.text (c.pos + c.width - 1) with
    | true =>
      rw [hends, if_pos rfl] at hnext
      rw [if_pos (by omega), hnext]
      simp
    | false =>
      rw [hends, if_neg Bool.false_ne_true] at hnext
      rw [hnext]
      have hne : c.pos ≠ c.doc.size := by omega
      have hout : ¬ c.doc.size ≤ c.pos := by omega
      simp [hne, hout]

theorem Settled.follows (h : c.Settled) (hpos : c.pos ≤ c.doc.size) : Follows c.doc c := by
  have hin : ¬ c.doc.size < c.pos := by omega
  have hline : c.line = c.doc.lineOf c.pos := by
    rw [h.line, if_neg hin, Nat.add_zero]
  refine
    { doc_eq := rfl
      line := hline
      atLineStart := ?_
      cur := h.cur
      next := h.next_eq
      atLineEnd := ?_ }
  . rw [hline, h.wellFormed.lineStart_lineOf, h.atLineStart, decide_eq_false hin, Bool.or_false]
    constructor
    . intro hstart
      rw [lineFloor_of_startsLine hstart]
    . intro heq
      rw [heq]
      apply startsLine_lineFloor
  . rw [hline]
    exact h.atLineEnd_iff hpos

/--
Where the walk through the whole lines of a span ends: with the lines, and behind the last character of the text if they
end with the text.
-/
def walkEnd (doc : Document) (span : Span) : Nat :=
  if (doc.wholeLines span).stop = doc.size then doc.size + 1 else (doc.wholeLines span).stop

theorem stop_start (doc : Document) (span : Span) : (start doc span).stop = walkEnd doc span := by
  show (if (doc.wholeLines span).stop == doc.size then (doc.wholeLines span).stop + 1 else (doc.wholeLines span).stop) = _
  unfold walkEnd
  split
  . next heq =>
    rw [beq_iff_eq] at heq
    rw [if_pos heq, heq]
  . next hne =>
    rw [beq_iff_eq] at hne
    rw [if_neg hne]

theorem isBoundary_walkEnd (hdoc : doc.WellFormed) (span : Span) :
    IsBoundary doc.text (walkEnd doc span) ∨ walkEnd doc span = doc.size + 1 := by
  unfold walkEnd
  split
  . exact .inr rfl
  . exact .inl (hdoc.isBoundary_wholeLines_stop span)

theorem pos_start_le_walkEnd (doc : Document) (span : Span) : (start doc span).pos ≤ walkEnd doc span := by
  have hle : (doc.wholeLines span).start ≤ (doc.wholeLines span).stop := Nat.le_add_right _ _
  show (doc.wholeLines span).start ≤ _
  unfold walkEnd
  split
  . omega
  . exact hle

theorem visits_lineStart (hdoc : doc.WellFormed) {span : Span} {line : Nat} (hline : line < doc.lineCount)
    (hle : (doc.wholeLines span).start ≤ doc.lineStart line) (hlt : doc.lineStart line < walkEnd doc span) :
    ∃ n, ((start doc span).forwardBy n).pos = doc.lineStart line ∧ ((start doc span).forwardBy n).line = line
      ∧ ∀ n', ((start doc span).forwardBy n').pos = doc.lineStart line → n' = n := by
  have hsettled := settled_start doc hdoc span
  have hstop := stop_start doc span
  obtain ⟨p, hstart, hbefore, heq⟩ := exists_startsLine (by rwa [Document.lineCount, hdoc.lines] at hline)
  rw [← hdoc.lineStart_eq] at heq
  rw [heq] at hle hlt ⊢
  have hmore : ∀ n, ((start doc span).forwardBy n).pos = p → ((start doc span).forwardBy n).more = true := by
    intro n hn
    simp only [more, decide_eq_true_eq, stop_forwardBy, hstop, hn, hlt]
  obtain ⟨n, hn, _⟩ := hsettled.exists_pos_eq (.inl (.inl hstart)) hle (by omega)
  refine ⟨n, hn, ?_, ?_⟩
  . have hfollows := (hsettled.forwardBy_of_more (hmore n hn)).follows (by
      rw [hn, doc_forwardBy]
      exact le_size_of_startsLine hstart)
    rw [hfollows.line, hn, doc_forwardBy]
    exact (hdoc.lineOf_eq p).trans hbefore
  -- A walk that is not over leads on with each step, so it does not come to a place twice.
  . intro n' hn'
    rcases Nat.lt_trichotomy n' n with hbefore | heq | hbehind
    . have := hsettled.pos_lt_forwardBy (hmore n' hn') hbefore
      omega
    . exact heq
    . have := hsettled.pos_lt_forwardBy (hmore n hn) hbehind
      omega

/--
A cursor that is walked through the whole lines of a span shows what stands in the text as long as it has not come to
their end. It visits the first place of each of the lines once, and its walk ends where the lines end, or one place
behind the text.
-/
theorem walk_follows_text (doc : Document) (hdoc : doc.WellFormed) (span : Span) :
    let visit := (start doc span).forwardBy
    (∀ n, (visit n).more = true → Follows doc (visit n))
      ∧ (∀ line, line < doc.lineCount → (doc.wholeLines span).start ≤ doc.lineStart line → doc.lineStart line < walkEnd doc span →
        ∃ n, (visit n).pos = doc.lineStart line ∧ (visit n).line = line ∧ ∀ n', (visit n').pos = doc.lineStart line → n' = n)
      ∧ ∃ n, (∀ m, m < n → (visit m).more = true) ∧ (visit n).more = false ∧ (visit n).pos = walkEnd doc span
        ∧ (walkEnd doc span ≤ doc.size → Follows doc (visit n)) := by
  intro visit
  have hsettled := settled_start doc hdoc span
  have hstop := stop_start doc span
  have hdocs : ∀ n, (visit n).doc = doc := doc_forwardBy (start doc span)
  refine ⟨?_, ?_, ?_⟩
  . intro n hmore
    have hvisit := hsettled.forwardBy_of_more hmore
    have hfollows := hvisit.follows (hvisit.pos_le hmore)
    rwa [hdocs n] at hfollows
  . intro line hline hle hlt
    exact visits_lineStart hdoc hline hle hlt
  . obtain ⟨n, hn, hfront⟩ := hsettled.exists_pos_eq (isBoundary_walkEnd hdoc span) (pos_start_le_walkEnd doc span)
      (Nat.le_of_eq hstop.symm)
    have hmore : ∀ m, m < n → (visit m).more = true := by
      intro m hm
      have := hfront m hm
      simp only [visit, more, decide_eq_true_eq, stop_forwardBy, hstop]
      exact this
    refine ⟨n, hmore, ?_, hn, ?_⟩
    . simp only [visit, more, decide_eq_false_iff_not, stop_forwardBy, hstop, hn]
      exact Nat.lt_irrefl _
    . intro hle
      have hfollows := (hsettled.forwardBy hmore).follows (by
        rw [hdocs n]
        exact Nat.le_trans (Nat.le_of_eq hn) hle)
      rwa [hdocs n] at hfollows

/--
In code page 932, a lead byte takes in the line feed behind it, and the next character still starts the next line.
-/
theorem walk_follows_text_lead_byte :
    let doc := (Document.ofText #[0x61, 0x81, 0x0A, 0x78]).setEncoding (.doubleByte .shiftJis)
    let visit := (start doc ⟨1, 3, 0⟩).forwardBy
    (∀ n, (visit n).more = true → Follows doc (visit n))
      ∧ (∃ n, (visit n).pos = 3 ∧ (visit n).line = 1 ∧ ∀ n', (visit n').pos = 3 → n' = n)
      ∧ ∃ n, (visit n).more = false ∧ (visit n).pos = 5 := by
  intro doc visit
  have hdoc : doc.WellFormed := Document.wellFormed_fresh #[0x61, 0x81, 0x0A, 0x78] (.doubleByte .shiftJis) .empty
  have hsecond : doc.lineStart 1 = 3 := by decide +kernel
  have hend : walkEnd doc ⟨1, 3, 0⟩ = 5 := by decide +kernel
  obtain ⟨hfollows, hvisits, n, _, hmore, hpos, _⟩ := walk_follows_text doc hdoc ⟨1, 3, 0⟩
  refine ⟨hfollows, ?_, n, hmore, hpos.trans hend⟩
  rw [← hsecond]
  exact hvisits 1 (by decide +kernel) (by decide +kernel) (by decide +kernel)

end Cursor

end Highlight
