import Highlight.Proofs.Fold.Stored
import Highlight.Proofs.Gibiane.Comment
import Highlight.Proofs.Gibiane.Parts

/-!
The comments that folding sees in Gibiane. It looks at the first two bytes of a line and not at the style, so it also takes a line
for a comment that starts with a star in a string, or has one behind its first byte.
-/

namespace Highlight.Gibiane

open LineIndex FoldScan

variable {doc : Document} {first pos : Nat} {compact : Bool} {span : Span} {s : FoldScan}

/--
Whether folding takes the byte at `pos` for a part of a comment.
-/
def isCommentedOut (doc : Document) (pos : Nat) : Bool :=
  ((scanAt doc pos).place (doc.spanOf 0 doc.size) pos).inComment

/--
What a scan knows of comments between the start of a line and its end.
-/
structure FoldScan.Within (doc : Document) (first pos : Nat) (s : FoldScan) : Prop where
  text : s.sweep.doc.text = doc.text
  behindLineEnd : s.behindLineEnd = decide (pos = first)
  secondBehindLineEnd : first < pos → s.secondBehindLineEnd = decide (pos = first + 1)
  inComment : s.inComment = true ↔ first < pos ∧ starAt doc first = true ∨ first + 1 < pos ∧ starAt doc (first + 1) = true

namespace FoldScan

theorem inComment_placeComment (s : FoldScan) (x : Code) (pos : Nat) :
    (s.placeComment x pos).inComment = (x.is '*' && (s.secondBehindLineEnd || s.behindLineEnd) || s.inComment) := by
  unfold placeComment
  cases hcomment : x.is '*' && (s.secondBehindLineEnd || s.behindLineEnd) || s.inComment with
  | true => rfl
  | false => exact (Bool.or_eq_false_iff.mp hcomment).2

/--
In a comment, the visible characters are counted anew.
-/
theorem visible_place (hcomment : (s.place span pos).inComment = true) : (s.place span pos).sweep.visible = 0 := by
  unfold place at *
  dsimp only at *
  rw [inComment_placeComment] at hcomment
  unfold placeComment
  rw [if_pos hcomment]

/--
In a comment, no word ends.
-/
theorem turnAt_place (hcomment : (s.place span pos).inComment = true) (stop : Nat) : (s.place span pos).turnAt stop pos = (0, 0) := by
  have hends : (s.place span pos).endsWord pos = false := by
    unfold endsWord
    dsimp only
    rw [hcomment, Bool.not_true, Bool.and_false, Bool.false_and]
  unfold turnAt
  rw [hends, if_neg Bool.false_ne_true]

/--
In a comment, the depths stay as they are.
-/
theorem depths_step (hinner : endsLine s.sweep.doc.text pos = false) (hcomment : (s.place span pos).inComment = true)
    (compact : Bool) :
    (s.step compact span pos).sweep.own = s.sweep.own ∧ (s.step compact span pos).sweep.next = s.sweep.next := by
  have hturn := turnAt_place hcomment span.stop
  obtain ⟨wordStart, inComment, visible, hplace⟩ := place_spec span s pos
  rw [step_of_inner hinner, hturn, turnBy_zero, hplace]
  exact ⟨Sweep.own_see _, Sweep.next_see _ _⟩

theorem inComment_place (s : FoldScan) (span : Span) (hpos : pos < s.sweep.doc.size) :
    (s.place span pos).inComment = (starAt s.sweep.doc pos && (s.secondBehindLineEnd || s.behindLineEnd) || s.inComment) := by
  have hstar : Code.is (s.sweep.doc.byteAt pos 0x20).toNat '*' = starAt s.sweep.doc pos := by
    have hpos : pos < s.sweep.doc.text.size := hpos
    rw [Document.byteAt, starAt, Document.byteAt?, Array.getElem?_eq_getElem hpos, Bool.eq_iff_iff, Code.is, beq_iff_eq, beq_iff_eq,
      Option.getD_some, Option.some_inj, ← UInt8.toNat_inj]
    rfl
  unfold place
  dsimp only
  rw [inComment_placeComment, placeWord_eq, hstar]

namespace Within

theorem start (hfront : s.InFront first) (htext : s.sweep.doc.text = doc.text) : Within doc first first s where
  text := htext
  behindLineEnd := by rw [hfront.behindLineEnd, decide_eq_true rfl]
  secondBehindLineEnd := fun hlt => absurd hlt (Nat.lt_irrefl first)
  inComment := by
    rw [hfront.inComment]
    exact iff_of_false Bool.false_ne_true (by omega)

variable (h : Within doc first pos s)
include h

theorem inComment_place_iff (hle : first ≤ pos) (hpos : pos < doc.size) (span : Span) :
    (s.place span pos).inComment = true ↔ starAt doc first = true ∨ first < pos ∧ starAt doc (first + 1) = true := by
  have hsize : pos < s.sweep.doc.size := by rwa [Document.size, h.text]
  have hstar : starAt s.sweep.doc pos = starAt doc pos := by rw [starAt, starAt, Document.byteAt?, Document.byteAt?, h.text]
  rw [FoldScan.inComment_place s span hsize, hstar, h.behindLineEnd, Bool.or_eq_true, h.inComment, Bool.and_eq_true, Bool.or_eq_true,
    decide_eq_true_eq]
  -- A star counts as the first byte of the line, and as the second one.
  rcases Nat.eq_or_lt_of_le hle with rfl | hlt
  . constructor
    . rintro (⟨hfirst, _⟩ | hbehind)
      . exact .inl hfirst
      . omega
    . rintro (hfirst | hbehind)
      . exact .inl ⟨hfirst, .inr rfl⟩
      . omega
  . rw [h.secondBehindLineEnd hlt, decide_eq_true_eq]
    constructor
    . rintro (⟨hhere, heq | heq⟩ | ⟨_, hfirst⟩ | ⟨_, hsecond⟩)
      . exact .inr ⟨hlt, heq ▸ hhere⟩
      . omega
      . exact .inl hfirst
      . exact .inr ⟨hlt, hsecond⟩
    . rintro (hfirst | ⟨_, hsecond⟩)
      . exact .inr (.inl ⟨hlt, hfirst⟩)
      . rcases Nat.eq_or_lt_of_le (Nat.succ_le_of_lt hlt) with heq | hbehind
        . exact .inl ⟨heq ▸ hsecond, .inl heq.symm⟩
        . exact .inr (.inr ⟨hbehind, hsecond⟩)

theorem step (hle : first ≤ pos) (hpos : pos < doc.size) (hinner : endsLine doc.text pos = false) :
    Within doc first (pos + 1) (s.step compact span pos) := by
  have hinner : endsLine s.sweep.doc.text pos = false := by rwa [h.text]
  have hplaced := h.inComment_place_iff hle hpos span
  refine
    { text := ?_
      behindLineEnd := ?_
      secondBehindLineEnd := ?_
      inComment := ?_ }
  . rw [doc_step_of_inner hinner]
    exact h.text
  . rw [step_of_inner hinner, decide_eq_false (by omega)]
  . intro _
    rw [step_of_inner hinner, decide_eq_decide.mpr (show pos + 1 = first + 1 ↔ pos = first by omega)]
    exact h.behindLineEnd
  . rw [step_of_inner hinner]
    show (s.place span pos).inComment = true ↔ _
    rw [hplaced]
    have hstart : first < pos + 1 := by omega
    have hsecond : first + 1 < pos + 1 ↔ first < pos := by omega
    rw [hsecond, and_iff_right hstart]

end Within

end FoldScan

section Line

variable {line : Nat} (hdoc : doc.WellFormed)
include hdoc

theorem within_scanAt (hle : doc.lineStart line ≤ pos) (hlt : pos < doc.lineStart (line + 1)) :
    Within doc (doc.lineStart line) pos (scanAt doc pos) := by
  have hsize := hdoc.lineStart_le_size (line + 1)
  induction pos, hle using Nat.le_induction with
  | base =>
    have hstands := stands_scanAt hdoc (doc.lineStart line)
    exact .start (hstands.inFront (hdoc.startsLine_of_lineStart_lt (by omega))) hstands.relevelled.sameSource.text
  | succ pos hle ih =>
    rw [scanAt_succ]
    exact (ih (by omega)).step hle (by omega) (hdoc.endsLine_of_succ_lt hle hlt)

/--
Folding takes the rest of a line for a comment from a star on that is the first or the second byte of the line.
-/
theorem isCommentedOut_iff (hle : doc.lineStart line ≤ pos) (hlt : pos < doc.lineStart (line + 1)) :
    isCommentedOut doc pos = true ↔ starAt doc (doc.lineStart line) = true
      ∨ doc.lineStart line < pos ∧ starAt doc (doc.lineStart line + 1) = true :=
  (within_scanAt hdoc hle hlt).inComment_place_iff hle (Nat.lt_of_lt_of_le hlt (hdoc.lineStart_le_size (line + 1))) _

theorem exists_isCommentedOut_iff (hlt : doc.lineStart line < doc.lineStart (line + 1)) :
    (∃ pos, doc.lineStart line ≤ pos ∧ pos < doc.lineStart (line + 1) ∧ isCommentedOut doc pos = true)
      ↔ starAt doc (doc.lineStart line) = true
        ∨ doc.lineStart line + 1 < doc.lineStart (line + 1) ∧ starAt doc (doc.lineStart line + 1) = true := by
  constructor
  . rintro ⟨pos, hle, hpos, hcommented⟩
    exact ((isCommentedOut_iff hdoc hle hpos).mp hcommented).imp_right fun hsecond => ⟨by omega, hsecond.2⟩
  . rintro (hstar | ⟨hsecond, hstar⟩)
    . exact ⟨_, Nat.le_refl _, hlt, (isCommentedOut_iff hdoc (Nat.le_refl _) hlt).mpr (.inl hstar)⟩
    . exact ⟨_, Nat.le_succ _, hsecond, (isCommentedOut_iff hdoc (Nat.le_succ _) hsecond).mpr (.inr ⟨Nat.lt_succ_self _, hstar⟩)⟩

/--
In a comment, nothing counts.
-/
theorem depths_scanAt {pos' : Nat} (hfirst : doc.lineStart line ≤ pos) (hle : pos ≤ pos') (hlt : pos' < doc.lineStart (line + 1))
    (hcomment : isCommentedOut doc pos = true) :
    isCommentedOut doc pos' = true ∧ (scanAt doc pos').sweep.own = (scanAt doc pos).sweep.own
      ∧ (scanAt doc pos').sweep.next = (scanAt doc pos).sweep.next := by
  induction pos', hle using Nat.le_induction with
  | base => exact ⟨hcomment, rfl, rfl⟩
  | succ pos' hle ih =>
    obtain ⟨hcomment', hown, hnext⟩ := ih (by omega)
    have hinner : endsLine (scanAt doc pos').sweep.doc.text pos' = false := by
      rw [(stands_scanAt hdoc pos').relevelled.sameSource.text]
      exact hdoc.endsLine_of_succ_lt (by omega) hlt
    obtain ⟨hown', hnext'⟩ := depths_step hinner hcomment' (doc.options.getFlag "fold.compact" true)
    refine ⟨?_, ?_, ?_⟩
    . rw [isCommentedOut_iff hdoc hfirst (by omega)] at hcomment
      rw [isCommentedOut_iff hdoc (by omega) hlt]
      exact hcomment.imp_right fun hsecond => ⟨by omega, hsecond.2⟩
    . rw [scanAt_succ, hown', hown]
    . rw [scanAt_succ, hnext', hnext]

end Line

section Session

variable (session : Session) (hlexer : session.lexer = lexer) (hdoc : doc.WellFormed) (hsize : 0 < doc.size)
include hlexer hdoc hsize

/--
A session that styles a text from its start on colours all of it, and then folds all of it.
-/
theorem style_eq_scanAt :
    let coloured := session.colour doc 0 doc.size
    coloured = (pass session.keywords).colour doc 0 doc.size ∧ doc.SameSource coloured
      ∧ session.style doc 0 doc.size = (scanAt coloured coloured.size).sweep.doc := by
  intro coloured
  have hcolours : session.Colours (pass session.keywords).colour := drives_pass hlexer
  have hcolour : coloured = (pass session.keywords).colour doc 0 doc.size := hcolours.colour_eq hdoc hsize (.inr rfl)
  have hsame : doc.SameSource coloured := by
    rw [hcolour]
    exact (lawfulPass session.keywords).sameSource_colour hdoc startsLine_zero hsize (.inr rfl)
      (good_pass session.keywords hdoc startsLine_zero hsize (.inr rfl))
  have hwell := hsame.wellFormed hdoc
  refine ⟨hcolour, hsame, ?_⟩
  show session.fold coloured 0 doc.size = _
  rw [← hsame.size]
  have hboundary : IsBoundary coloured.text coloured.size := .inr rfl
  obtain ⟨span, hspan, hfold⟩ := exists_fold_eq hlexer hwell startsLine_zero (Nat.lt_of_lt_of_eq hsize hsame.size.symm) hboundary
  rw [hfold, fold_eq_scan hwell hspan]
  rfl

end Session

/--
Folding takes a line for a comment if colouring has made it one, and in two other places: if a string goes over its start and a star
comes first there, and if a star is its second byte. From there on, no word of the line changes a depth, and nothing visible counts.
-/
theorem isCommentedOut_iff_comment (session : Session) (hlexer : session.lexer = lexer) (text : Array UInt8) (encoding : Encoding)
    (hsingle : ∀ page, encoding ≠ .doubleByte page) (options : Options) (line : Nat) :
    let coloured := session.colour (.fresh text encoding options) 0 text.size
    let styled := session.style (.fresh text encoding options) 0 text.size
    let first := styled.lineStart line
    let next := styled.lineStart (line + 1)
    first < next →
      styled = (scanAt coloured coloured.size).sweep.doc
        ∧ (styled.styleAt first = Style.comment ↔ starAt styled first = true ∧ styled.styleBefore first = Style.default)
        ∧ ((∃ pos, first ≤ pos ∧ pos < next ∧ isCommentedOut coloured pos = true) ↔
            styled.styleAt first = Style.comment
              ∨ starAt styled first = true ∧ styled.styleBefore first ≠ Style.default
              ∨ first + 1 < next ∧ starAt styled (first + 1) = true)
        ∧ ∀ pos pos', first ≤ pos → pos ≤ pos' → pos' < next → isCommentedOut coloured pos = true →
            isCommentedOut coloured pos' = true ∧ (scanAt coloured pos').sweep.own = (scanAt coloured pos).sweep.own
              ∧ (scanAt coloured pos').sweep.next = (scanAt coloured pos).sweep.next
              ∧ ((scanAt coloured pos').place (coloured.spanOf 0 coloured.size) pos').sweep.visible = 0 := by
  intro coloured styled first next hlt
  have hdoc : (Document.fresh text encoding options).WellFormed := Document.wellFormed_fresh text encoding options
  have hsize : 0 < text.size := by
    apply Nat.pos_of_ne_zero
    intro hempty
    obtain rfl : text = #[] := Array.eq_empty_of_size_eq_zero hempty
    exact Nat.not_lt_zero _ (Nat.lt_of_lt_of_le hlt (hdoc.lineStart_le_size (line + 1)))
  obtain ⟨hcolour, hsame, hstyled⟩ : coloured = (pass session.keywords).colour (.fresh text encoding options) 0 text.size
      ∧ (Document.fresh text encoding options).SameSource coloured ∧ styled = (scanAt coloured coloured.size).sweep.doc :=
    style_eq_scanAt session hlexer hdoc hsize
  have hwell : coloured.WellFormed := hsame.wellFormed hdoc
  have hrelevelled : coloured.Relevelled styled := by
    rw [hstyled]
    exact (stands_scanAt hwell coloured.size).relevelled
  -- Folding has left everything but the levels as it was.
  have hshown : styled.styleAt = coloured.styleAt ∧ styled.styleBefore = coloured.styleBefore ∧ starAt styled = starAt coloured
      ∧ styled.lineStart = coloured.lineStart := by
    obtain ⟨levels, _, hlevels⟩ := hrelevelled
    rw [hlevels]
    exact ⟨rfl, rfl, rfl, rfl⟩
  obtain ⟨hstyle, hbefore, hstar, hlines⟩ := hshown
  have hfirst : first = coloured.lineStart line := congrFun hlines line
  have hnext : next = coloured.lineStart (line + 1) := congrFun hlines (line + 1)
  rw [hfirst, hnext] at hlt
  rw [hfirst, hnext, hstyle, hbefore, hstar]
  have hwithin : coloured.lineStart line < coloured.size := Nat.lt_of_lt_of_le hlt (hwell.lineStart_le_size (line + 1))
  have hcomment : coloured.styleAt (coloured.lineStart line) = Style.comment
      ↔ starAt coloured (coloured.lineStart line) = true ∧ coloured.styleBefore (coloured.lineStart line) = Style.default := by
    have hstart := hwell.startsLine_of_lineStart_lt hwithin
    rw [hsame.text] at hstart
    rw [comment_colour_iff hdoc hsize hsingle hcolour hstart (Nat.lt_of_lt_of_eq hwithin hsame.size), starAt, starAt,
      Document.byteAt?, Document.byteAt?, hsame.text]
  refine ⟨hstyled, hcomment, ?_, ?_⟩
  . rw [exists_isCommentedOut_iff hwell hlt, ← or_assoc]
    refine or_congr ⟨fun hstar => ?_, ?_⟩ Iff.rfl
    . by_cases hdefault : coloured.styleBefore (coloured.lineStart line) = Style.default
      . exact .inl (hcomment.mpr ⟨hstar, hdefault⟩)
      . exact .inr ⟨hstar, hdefault⟩
    . rintro (hstyled | ⟨hstar, _⟩)
      . exact (hcomment.mp hstyled).1
      . exact hstar
  . intro pos pos' hle hle' hpos' hcommented
    obtain ⟨hcommented', hown, hnext⟩ := depths_scanAt hwell hle hle' hpos' hcommented
    exact ⟨hcommented', hown, hnext, FoldScan.visible_place hcommented'⟩

/--
A comment, a line that is none, and a string that goes over the start of a line.
-/
theorem isCommentedOut_iff_comment_string :
    let session := Session.ofLexer lexer
    let text := "*a\nsi x\n'b\nc'\n".toUTF8.data
    let coloured := session.colour (.fresh text .singleByte .empty) 0 text.size
    let styled := session.style (.fresh text .singleByte .empty) 0 text.size
    (∃ pos, styled.lineStart 0 ≤ pos ∧ pos < styled.lineStart 1 ∧ isCommentedOut coloured pos = true)
      ∧ ¬ (∃ pos, styled.lineStart 1 ≤ pos ∧ pos < styled.lineStart 2 ∧ isCommentedOut coloured pos = true)
      ∧ ¬ (∃ pos, styled.lineStart 3 ≤ pos ∧ pos < styled.lineStart 4 ∧ isCommentedOut coloured pos = true) := by
  intro session text coloured styled
  have hcomment := isCommentedOut_iff_comment session rfl text .singleByte (fun _ => nofun) .empty
  obtain ⟨_, _, hcomment0, _⟩ := hcomment 0 (by decide +kernel)
  obtain ⟨_, _, hcomment1, _⟩ := hcomment 1 (by decide +kernel)
  obtain ⟨_, _, hcomment3, _⟩ := hcomment 3 (by decide +kernel)
  exact ⟨hcomment0.mpr (by decide +kernel), fun h => absurd (hcomment1.mp h) (by decide +kernel),
    fun h => absurd (hcomment3.mp h) (by decide +kernel)⟩

/--
A star behind the first byte of a line, and one in a string that goes over the start of a line. The word `si` opens no block there.
-/
theorem isCommentedOut_of_ne_comment :
    let session := ((Session.ofLexer lexer).setKeywords 0 "si").1
    let second := "a*b si x\n".toUTF8.data
    let coloured := session.colour (.fresh second .singleByte .empty) 0 second.size
    let string := "'a\n*b' si x\n".toUTF8.data
    let coloured' := session.colour (.fresh string .singleByte .empty) 0 string.size
    coloured.styleAt 0 = Style.default ∧ coloured.styleAt 4 = Style.word ∧ coloured.lineStart 1 = 9
      ∧ isCommentedOut coloured 1 = true ∧ (scanAt coloured 8).sweep.next = (scanAt coloured 0).sweep.next
      ∧ coloured'.lineStart 1 = 3 ∧ coloured'.styleAt 3 = Style.string ∧ coloured'.styleAt 7 = Style.word
      ∧ isCommentedOut coloured' 3 = true ∧ (scanAt coloured' 11).sweep.next = (scanAt coloured' 3).sweep.next := by
  decide +kernel

end Highlight.Gibiane
