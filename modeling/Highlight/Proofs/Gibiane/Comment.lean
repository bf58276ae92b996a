import Highlight.Proofs.Gibiane.Lowered
import Highlight.Proofs.Gibiane.Moves

/-!
The comments of Gibiane. When a pass has come by the start of a line, it is decided whether the line is one: a star there begins a
comment, unless a string goes over the start of the line.
-/

namespace Highlight.Gibiane

open LineIndex Cursor

variable {keywords : Keywords} {doc : Document} {first : Nat} {c c' : Cursor}

/--
Whether a star stands at `pos`.
-/
def starAt (doc : Document) (pos : Nat) : Bool :=
  doc.byteAt? pos == some 0x2A

/--
What the pass has decided at the line start `first` behind the cursor: no string went over it, and a star has made the line a
comment, or a string went over it.
-/
inductive Passed (doc : Document) (first : Nat) (c : Cursor) : Prop where
  | outside : (0 < first → first - 1 < c.pen.segment ∧ c.doc.styleAt (first - 1) = Style.default) →
    c.Covers (· == Style.comment) (starAt doc first) first → Passed doc first c
  | inString : 0 < first → c.Covers (· == Style.default) false (first - 1) → c.Covers (· == Style.comment) false first →
    Passed doc first c

namespace Passed

variable (h : Passed doc first c)
include h

theorem forward (hmore : c.more = true) : Passed doc first c.forward := by
  cases h with
  | outside hbefore hstar =>
    refine .outside ?_ (hstar.forward hmore)
    rw [doc_forward, pen_forward hmore]
    exact hbefore
  | inString hpositive hbefore hstar => exact .inString hpositive (hbefore.forward hmore) (hstar.forward hmore)

/--
No token becomes a comment or a part of one later on, and outside of tokens the byte in front of the line is painted.
-/
theorem moves (hc : c.OnText doc) (hpos : c.pos ≤ doc.size) (hfirst : first < doc.size)
    (hcomment : Moves (· == Style.comment) False c c')
    (hdefault : c.state = Style.default ∨ Moves (· == Style.default) False c c') : Passed doc first c' := by
  cases h with
  | outside hbefore hstar =>
    refine .outside (fun hpositive => ?_) (hstar.moves hc hpos hfirst hcomment)
    obtain ⟨hlt, hstyle⟩ := hbefore hpositive
    obtain ⟨hlt', hsame⟩ := hcomment.painted hlt
    exact ⟨hlt', hsame.trans hstyle⟩
  | inString hpositive hbefore hstar =>
    refine .inString hpositive ?_ (hstar.moves hc hpos hfirst hcomment)
    rcases hdefault with hstate | hdefault
    . cases hbefore with
      | painted hlt hstyle =>
        obtain ⟨hlt', hsame⟩ := hcomment.painted hlt
        exact .painted hlt' (by rw [hsame]; exact hstyle)
      | opened _ _ hopen =>
        rw [hstate] at hopen
        cases hopen
    . exact hbefore.moves hc hpos (by omega) hdefault

theorem complete (hc : c.OnText doc) (hfirst : first < doc.size) :
    c.complete.styleAt first = Style.comment ↔ starAt doc first = true ∧ c.complete.styleBefore first = Style.default := by
  cases h with
  | outside hbefore hstar =>
    have hstyle := hstar.complete hc hfirst
    have hdefault : c.complete.styleBefore first = Style.default := by
      unfold Document.styleBefore
      split
      . rfl
      . next hne =>
        obtain ⟨hlt, hpainted⟩ := hbefore (Nat.pos_of_ne_zero fun hzero => hne (beq_iff_eq.mpr hzero))
        exact (Pen.styleAt_colourTo_of_lt hlt _ _).trans hpainted
    rw [← hstyle, beq_iff_eq]
    exact ⟨fun heq => ⟨heq, hdefault⟩, And.left⟩
  | inString hpositive hbefore hstar =>
    have hstyle := hstar.complete hc hfirst
    have hopen := hbefore.complete hc (by omega)
    rw [beq_eq_false_iff_ne] at hstyle hopen
    have hne : (first == 0) = false := beq_eq_false_iff_ne.mpr (by omega)
    rw [Document.styleBefore, hne, if_neg Bool.false_ne_true]
    exact ⟨fun heq => absurd heq hstyle, fun hboth => absurd hboth.2 hopen⟩

end Passed

namespace Scan

variable {s : Scan}

theorem Leaves.passed (h : Leaves c c') (hc : c.OnText doc) (hpos : c.pos ≤ doc.size) (hfirst : first < doc.size)
    (hpassed : Passed doc first c) : Passed doc first c' :=
  hpassed.moves hc hpos hfirst (h.moves _ (by decide +kernel)) (.inr (h.moves _ (by decide +kernel)))

theorem Enters.passed (h : Enters c c') (hc : c.OnText doc) (hpos : c.pos ≤ doc.size) (hfirst : first < doc.size)
    (hpassed : Passed doc first c) : Passed doc first c' := by
  refine hpassed.moves hc hpos hfirst (h.moves _ (by decide +kernel)) ?_
  cases h with
  | stays => exact .inr .refl
  | starts _ hstate => exact .inl hstate
  | ends _ hstate => exact .inl hstate

/--
At the start of a line, a star begins a comment, and nothing else does.
-/
theorem state_enter_iff (hstate : s.cursor.state = Style.default) (hbehind : s.behindLineEnd = true) (keywords : Keywords)
    (token : String) : (s.enter keywords token).cursor.state = Style.comment ↔ s.cursor.sees '*' = true := by
  have hbehind : (s.cursor.prev.isLineEnd || s.cursor.pos == s.first) = true := hbehind
  unfold enter
  dsimp only
  rw [hstate, hbehind, Bool.and_true, if_neg (by decide)]
  split
  . next hstar => exact iff_of_true rfl hstar
  . next hstar =>
    refine iff_of_false ?_ hstar
    split
    . exact show ¬ Style.string = Style.comment by decide
    . split
      . exact show ¬ Style.number = Style.comment by decide
      . split
        . exact show ¬ Style.default = Style.comment by decide
        . split
          . exact show ¬ Style.default = Style.comment by decide
          . show ¬ s.cursor.state = Style.comment
            rw [hstate]
            decide

namespace OnText

variable (h : s.OnText doc)
include h

theorem passed_step (hpos : s.cursor.pos ≤ doc.size) (hfirst : first < doc.size) (hpassed : Passed doc first s.cursor)
    (keywords : Keywords) : Passed doc first (s.step keywords).cursor := by
  obtain ⟨left, entered, hleaves, hleft, hpos', henters, hentered, hpos'', _, _, hstep⟩ := h.parts hpos keywords
  rw [hstep]
  exact (henters.passed hleft hpos' hfirst (hleaves.passed h.cursor hpos hfirst hpassed)).forward (hentered.more_iff.mpr hpos'')

theorem startsLine_pos (hpos : s.cursor.pos ≤ doc.size) (hstart : s.cursor.atLineStart = true) :
    startsLine doc.text s.cursor.pos = true := by
  rw [h.cursor.settled.atLineStart, h.cursor.source.text, h.cursor.size_eq, decide_eq_false (by omega), Bool.or_false] at hstart
  exact hstart

theorem behindLineEnd (hpos : s.cursor.pos ≤ doc.size) (hstart : s.cursor.atLineStart = true) : s.behindLineEnd = true := by
  unfold Scan.behindLineEnd
  rcases Nat.eq_zero_or_pos s.cursor.pos with hzero | hpositive
  . rw [hzero, h.first, beq_self_eq_true, Bool.or_true]
  . rw [h.kept.prev hstart (h.cursor.size_eq ▸ hpos), h.cursor.source.lead,
      isLineEnd_lead (h.startsLine_pos hpos hstart) hpositive, Bool.true_or]

theorem segment_lt (hpositive : 0 < s.cursor.pos) : s.cursor.pen.segment < s.cursor.pos :=
  h.kept.begun.resolve_left (Nat.ne_of_gt hpositive)

/--
Outside of a string, the step from a line start decides whether the line is a comment.
-/
theorem passed_of_default (hlt : s.cursor.pos < doc.size) (hstart : s.cursor.atLineStart = true)
    (hstate : s.cursor.state = Style.default) (keywords : Keywords) : Passed doc s.cursor.pos (s.step keywords).cursor := by
  have hpos := Nat.le_of_lt hlt
  have hended : Ended s.cursor := h.kept.ended hstart (h.cursor.size_eq ▸ hpos) hstate
  have hword : s.endWord.cursor.OnText doc := h.cursor.setState Style.default
  have henters : Enters s.endWord.cursor (s.endWord.enter keywords "").cursor := enters s.endWord keywords ""
  have hmoves := henters.moves (· == Style.comment) (by decide +kernel)
  obtain ⟨hentered, _, hpos', _⟩ := hmoves.onText hword hpos
  have hmore := hentered.more_iff.mpr hpos'
  have hsame : (s.endWord.enter keywords "").cursor.pos = s.cursor.pos := henters.pos_eq
  have hcomment := state_enter_iff (s := s.endWord) rfl (h.behindLineEnd hpos hstart) keywords ""
  have hsees : s.endWord.cursor.sees '*' = true ↔ doc.byteAt? s.cursor.pos = some 0x2A := hword.sees_iff (by decide)
  rw [step_of_ended hstate hended, cursor_onward]
  refine .outside (fun hpositive => ?_) ?_
  . have hsegment := h.segment_lt hpositive
    have hwithin : s.cursor.pos - 1 < s.cursor.pen.doc.size := Nat.lt_of_lt_of_eq (by omega) h.cursor.size_eq.symm
    have hpainted : s.cursor.pos - 1 < s.endWord.cursor.pen.segment := by
      show _ < (s.cursor.pen.colourTo s.cursor.pos s.cursor.state).segment
      rw [Pen.segment_colourTo]
      omega
    have hstyle : s.endWord.cursor.doc.styleAt (s.cursor.pos - 1) = Style.default := by
      rw [← hstate]
      exact Pen.styleAt_colourTo h.cursor.settled.wellFormed (by omega) (by omega) hwithin _
    obtain ⟨hpainted', hkept⟩ := hmoves.painted hpainted
    rw [pen_forward hmore, doc_forward]
    exact ⟨hpainted', hkept.trans hstyle⟩
  . have hknown : ((s.endWord.enter keywords "").cursor.state == Style.comment) = starAt doc s.cursor.pos := by
      rw [Bool.eq_iff_iff, beq_iff_eq, hcomment, hsees, starAt, beq_iff_eq]
    rw [← hknown]
    have hwidth := hentered.settled.width_pos
    exact .of_forward (· == Style.comment) hentered hpos' (Nat.le_of_eq hsame) (by rw [pos_forward hmore]; omega)

/--
In a string, it does not.
-/
theorem passed_of_string (hlt : s.cursor.pos < doc.size) (hstate : s.cursor.state = Style.string) (keywords : Keywords) :
    Passed doc s.cursor.pos (s.step keywords).cursor := by
  have hpos := Nat.le_of_lt hlt
  have hmore := h.cursor.more_iff.mpr hpos
  have hpositive : 0 < s.cursor.pos := Nat.pos_of_ne_zero fun hzero => absurd ((h.begun hzero).symm.trans hstate) (by decide)
  have hsegment := h.segment_lt hpositive
  have hforward : s.cursor.forward.state = Style.string := (state_forward hmore).trans hstate
  -- Behind the first character, the string has still got both bytes.
  have hpassed : Passed doc s.cursor.pos s.cursor.forward := by
    have hwidth := h.cursor.settled.width_pos
    have hbefore : s.cursor.Covers (· == Style.default) false (s.cursor.pos - 1) := by
      refine .opened (by omega) (by omega) ?_
      rw [hstate]
      rfl
    have hstar := Covers.of_forward (· == Style.comment) h.cursor hpos (Nat.le_refl _) (by rw [pos_forward hmore]; omega)
    rw [hstate] at hstar
    exact .inString hpositive (hbefore.forward hmore) hstar
  obtain ⟨left, entered, hleaves, hleft, hpos', henters, hentered, hpos'', _, _, hstep⟩ := h.parts hpos keywords
  rw [hstep]
  show Passed doc s.cursor.pos entered.cursor.forward
  generalize entered.cursor = c' at *
  cases hleaves with
  | stays =>
    cases henters with
    | stays => exact hpassed
    | starts _ hdefault => exact absurd (hdefault.symm.trans hstate) (by decide)
    | ends _ hdefault => exact absurd (hdefault.symm.trans hstate) (by decide)
  | ends hnone => exact absurd hstate hnone
  | closes style _ hquote hstyle =>
    have hinner := h.cursor.pos_forward_of_isInner (isInner_of_isQuote hquote)
    have hcloses : ∀ kind : Highlight.Style → Bool, (∀ style ∈ Style.string :: Style.words, kind style = kind Style.string) →
        Moves kind False s.cursor.forward ((s.cursor.forward.changeState style).setState Style.default) :=
      fun kind hkind => .setState (.changeState .refl style (by rw [hforward]; exact hkind style hstyle)) _
    have hclosed := hpassed.moves (h.cursor.forward hpos) (by omega) hlt (hcloses _ (by decide +kernel))
      (.inr (hcloses _ (by decide +kernel)))
    exact (henters.passed hleft hpos' hlt hclosed).forward (hentered.more_iff.mpr hpos'')

end OnText

/--
A scan that has come by a number of line starts.
-/
structure Reads (doc : Document) (s : Scan) : Prop where
  onText : s.OnText doc
  passed : ∀ first, startsLine doc.text first = true → first < s.cursor.pos → first < doc.size → Passed doc first s.cursor

theorem Reads.step (h : s.Reads doc) (hpos : s.cursor.pos ≤ doc.size) (hsingle : ∀ page, doc.encoding ≠ .doubleByte page)
    (keywords : Keywords) : (s.step keywords).Reads doc where
  onText := h.onText.step hpos hsingle keywords
  passed := by
    intro first hstart hlt hfirst
    rcases Nat.lt_trichotomy first s.cursor.pos with hbefore | rfl | hbehind
    . exact h.onText.passed_step hpos hfirst (h.passed first hstart hbefore hfirst) keywords
    . have hat : s.cursor.atLineStart = true := by
        rw [h.onText.cursor.settled.atLineStart, h.onText.cursor.source.text, hstart, Bool.true_or]
      have hloose := h.onText.kept.loose hat
      rw [loose, Bool.or_eq_true, beq_iff_eq, beq_iff_eq] at hloose
      rcases hloose with hstate | hstate
      . exact h.onText.passed_of_default hfirst hat hstate keywords
      . exact h.onText.passed_of_string hfirst hstate keywords
    . -- No character goes over a line start, and a step leaves its line with the last one only.
      obtain ⟨left, entered, hleaves, hleft, hpos', henters, hentered, hpos'', _, _, hstep⟩ := h.onText.parts hpos keywords
      have hafter := (hleaves.moves (fun _ => true) fun _ _ => rfl).pos_lt h.onText.cursor hpos hstart hbehind
      have hafter' := (henters.moves (fun _ => true) fun _ _ => rfl).pos_lt hleft hpos' hstart hafter
      have hover := hentered.settled.pos_add_width_le_of_lt (.inl (.inl (by rw [hentered.source.text]; exact hstart))) hafter'
      have hlt : first < (s.step keywords).cursor.pos := hlt
      rw [hstep] at hlt
      have hforward := pos_forward (hentered.more_iff.mpr hpos'')
      have hlt : first < entered.cursor.forward.pos := hlt
      omega

theorem onText_begin (hdoc : doc.WellFormed) (hsize : 0 < doc.size) : (Scan.begin doc).OnText doc := by
  obtain ⟨htext, hpos, _, hstate⟩ := Cursor.OnText.start hdoc Style.default
  exact
    { cursor := htext
      token := by
        show isToken (Cursor.start doc ⟨0, doc.size, Style.default⟩).state = true
        rw [hstate]
        rfl
      kept := kept_ofSpan hdoc startsLine_zero hsize (.inr rfl) rfl
      first := hpos
      begun := fun _ => hstate }

end Scan

/--
In a text that is coloured from its start on, the lines of comments are those that start with a star and not in a string.
-/
theorem comment_colour_iff (hdoc : doc.WellFormed) (hsize : 0 < doc.size) (hsingle : ∀ page, doc.encoding ≠ .doubleByte page)
    {coloured : Document} (hcolour : coloured = (pass keywords).colour doc 0 doc.size) (hstart : startsLine doc.text first = true)
    (hfirst : first < doc.size) :
    coloured.styleAt first = Style.comment ↔ starAt doc first = true ∧ coloured.styleBefore first = Style.default := by
  have hlawful := lawfulPass keywords
  have hgood : (pass keywords).Good (Scan.begin doc) := good_pass keywords hdoc startsLine_zero hsize (.inr rfl)
  obtain ⟨t, hrun, hend⟩ := hlawful.ends hgood
  have hpos := (Scan.onText_begin hdoc hsize).first
  have ht : t.Reads doc := by
    refine hrun.invariant (fun s : Scan => s.Reads doc) ?_ ⟨Scan.onText_begin hdoc hsize, fun first _ hlt => ?_⟩
    . exact fun s hmore hs => hs.step (hs.onText.cursor.more_iff.mp hmore) hsingle keywords
    . exact absurd (Nat.lt_of_lt_of_eq hlt hpos) (Nat.not_lt_zero _)
  have hover : ¬ t.cursor.pos ≤ doc.size := fun hle => Bool.false_ne_true (hend.symm.trans (ht.onText.cursor.more_iff.mpr hle))
  have hpassed := ht.passed first hstart (by omega) hfirst
  rw [hcolour, hlawful.colour_eq hdoc startsLine_zero hsize (.inr rfl) hgood ⟨hrun, hend⟩]
  exact hpassed.complete ht.onText.cursor hfirst

end Highlight.Gibiane
