import Mathlib.Algebra.Ring.Int.Defs
import Highlight.Proofs.Fold.Next
import Highlight.Proofs.Rust.Comment
import Highlight.Proofs.Session.Folding

/-!
What the fold levels of Rust count: braces, and comments that are open at the end of a line. A documentation keyword of a
line comment counts like a stream comment. If it is a single byte, it opens a block that nothing closes.
-/

namespace Highlight

namespace Rust

open LineIndex

variable {doc styled : Document} {keywords : Keywords} {options : FoldOptions} {sweep : Sweep} {s : Scan} {i pos stop : Nat}

/--
A byte in the style of a stream comment between others that are not, and within its line.
-/
def isLone (doc : Document) (i : Nat) : Bool :=
  isStreamComment (doc.styleAt i) && !isStreamComment (doc.styleBefore i) && !isStreamComment (doc.styleAt (i + 1))
    && !endsLine doc.text i

/--
A stream comment goes on at `pos`, or has not ended with the line in front of it.
-/
def straddles (doc : Document) (pos : Nat) : Bool :=
  isStreamComment (doc.styleBefore pos) && (isStreamComment (doc.styleAt pos) || startsLine doc.text pos)

/--
Stream comments do not end with a line.
-/
def GoesOnBehindLines (doc : Document) : Prop :=
  ∀ pos, pos < doc.size → startsLine doc.text pos = true → isStreamComment (doc.styleBefore pos) = true →
    isStreamComment (doc.styleAt pos) = true

section Lines

/--
A scan that stands at the start of a line, with a stream comment behind the terminator, is in it.
-/
theorem Scan.Sound.inComment (h : s.Sound doc) (hends : endsLine doc.text (s.cursor.pos - 1) = true)
    (hstream : isStreamComment s.cursor.state = true) : s.InComment := by
  unfold isStreamComment at hstream
  split at hstream
  . next hstate => exact .comment hstate
  . next hstate => exact .commentDoc hstate
  . next hstate =>
    -- A keyword is open only behind one of its characters.
    have hinner := (h.keyword hstate).2.2
    have hbreak : Code.isInner (doc.byteAt (s.cursor.pos - 1) 0).toNat = false := by
      rw [Document.byteAt]
      unfold endsLine at hends
      split at hends
      . next hb => rw [hb]; rfl
      . next hb => rw [hb]; rfl
      . cases hends
    rw [hbreak] at hinner
    cases hinner
  . next hstate => exact absurd hstate h.not_error
  . cases hstream

/--
The first byte of a line belongs to the stream comment that is open there.
-/
theorem Scan.Commented.covers_step (h : s.Commented doc s.cursor.pos) (hpos : s.cursor.pos < doc.size) (keywords : Keywords) :
    (s.step keywords).cursor.Covers isStreamComment true s.cursor.pos := by
  cases hend : doc.matchesAt s.cursor.pos "*/" with
  | true => exact (h.close (Nat.le_of_lt hpos) hend keywords).2 _ (Nat.le_refl _) (by omega) hpos
  | false =>
    obtain ⟨hstep, hbehind⟩ := h.step (Nat.le_of_lt hpos) hend keywords
    have hwidth := Encoding.decodeAt_width_pos doc.encoding doc.text s.cursor.pos
    rw [Document.decodeAt] at hbehind
    exact hstep.covers _ (Nat.le_refl _) (by omega) hpos

theorem sameSource_colour (hdoc : doc.WellFormed) (keywords : Keywords) :
    doc.SameSource (colour keywords ⟨0, doc.size, Style.default⟩ doc) := by
  have hvisits : Visits keywords doc (.ofSpan ⟨0, doc.size, Style.default⟩ doc) := .refl _
  obtain ⟨last, hlast, _, heq⟩ := hvisits.exists_end hdoc
  rw [heq]
  exact (Visits.sound hdoc hlast).onText.source.trans (Cursor.sameSource_colourTo _ _ _)

/--
A pass leaves no stream comment that ends with a line.
-/
theorem goesOnBehindLines_colour (hdoc : doc.WellFormed) (keywords : Keywords) :
    GoesOnBehindLines (colour keywords ⟨0, doc.size, Style.default⟩ doc) := by
  have hvisits : Visits keywords doc (.ofSpan ⟨0, doc.size, Style.default⟩ doc) := .refl _
  have hsource := sameSource_colour hdoc keywords
  intro pos hsize hstart hstream
  rw [hsource.size] at hsize
  rw [hsource.text] at hstart
  have hpos : 0 < pos := by
    rw [Nat.pos_iff_ne_zero]
    rintro rfl
    cases hstream
  rw [Document.styleBefore, if_neg (by simpa using hpos.ne')] at hstream
  obtain ⟨_, hfront, _, _⟩ := Cursor.OnText.start hdoc Style.default
  have hfront : (Scan.ofSpan ⟨0, doc.size, Style.default⟩ doc).cursor.pos = 0 := hfront
  obtain ⟨t, hrun, rfl⟩ : ∃ t, Visits keywords doc t ∧ t.cursor.pos = pos :=
    Visits.exists_pos_eq (Visits.sound hdoc hvisits) (.inl hstart) (by omega)
  have ht := Visits.sound hdoc hrun
  have hstate : isStreamComment t.cursor.state = true := by
    have hopened : t.cursor.Covers isStreamComment (isStreamComment t.cursor.state) (t.cursor.pos - 1) :=
      .opened (by have := ht.segment_lt hpos; omega) (by omega) rfl
    rw [← Visits.isStreamComment_colour hdoc hrun (by omega) hopened]
    exact hstream
  have hcommented : t.Commented doc t.cursor.pos :=
    ⟨ht, ht.inComment (endsLine_of_startsLine hstart hpos) hstate, fun i hle hlt => absurd hle (by omega)⟩
  have hmore : t.cursor.more = true := ht.onText.more_iff.mpr (Nat.le_of_lt hsize)
  exact Visits.isStreamComment_colour hdoc (hrun.tail hmore) hsize (hcommented.covers_step hsize keywords)

end Lines

/--
The depth in front of `pos` by braces and by comments that do not nest.
-/
def byteDepth (doc : Document) (pos : Nat) : Int :=
  (doc.countStyled Style.operator 0x7B pos - doc.countStyled Style.operator 0x7D pos)
    + (Nat.count (isLone doc ·) pos + if straddles doc pos then 1 else 0)

/--
The depth in front of `pos`, with that of the nested comments which the line starts in.
-/
def depthAt (doc : Document) (pos : Nat) : Int :=
  byteDepth doc pos + Nesting.before doc (doc.lineOf pos)

section Count

theorem depthAt_relevelled {doc' : Document} (h : doc.Relevelled doc') (pos : Nat) : depthAt doc' pos = depthAt doc pos := by
  obtain ⟨levels, _, rfl⟩ := h
  rfl

theorem goesOnBehindLines_relevelled {doc' : Document} (h : doc.Relevelled doc') (hgoes : GoesOnBehindLines doc) :
    GoesOnBehindLines doc' := by
  obtain ⟨levels, _, rfl⟩ := h
  exact hgoes

theorem depthAt_zero (hdoc : doc.WellFormed) : depthAt doc 0 = 0 := by
  rw [depthAt, hdoc.lineOf_zero]
  rfl

/--
A stream comment counts while it straddles, and a lone byte counts for good.
-/
theorem streamCommentChange_eq (hgoes : GoesOnBehindLines doc) (hpos : pos < doc.size) :
    streamCommentChange isStreamComment (doc.styleBefore pos) (doc.styleAt pos) (doc.styleAt (pos + 1)) (endsLine doc.text pos)
      = (if isLone doc pos then 1 else 0) + (if straddles doc (pos + 1) then 1 else 0) - (if straddles doc pos then 1 else 0) := by
  have hbehind := hgoes pos hpos
  have hbefore : doc.styleBefore (pos + 1) = doc.styleAt pos := rfl
  unfold streamCommentChange isLone straddles
  rw [startsLine_succ, hbefore]
  generalize isStreamComment (doc.styleBefore pos) = before at *
  generalize isStreamComment (doc.styleAt pos) = here at *
  generalize isStreamComment (doc.styleAt (pos + 1)) = after at *
  generalize endsLine doc.text pos = ends at *
  generalize startsLine doc.text pos = starts at *
  revert hbehind before here after ends starts
  decide

/--
Folding by braces and by comments, but not by markers.
-/
structure FoldOptions.CountsComments (options : FoldOptions) : Prop where
  enabled : options.enabled = true
  braces : options.braces = true
  comments : options.comments = true
  multiline : options.multiline = true
  markers : options.markers = false

variable (hoptions : options.CountsComments)
include hoptions

/--
What a byte adds to the depth is what it adds to the count.
-/
theorem next_countToken (hgoes : GoesOnBehindLines sweep.doc) (hpos : pos < sweep.doc.size) :
    (countToken options sweep pos).next = sweep.next + (byteDepth sweep.doc (pos + 1) - byteDepth sweep.doc pos) := by
  have hcomment : (countComment options sweep pos).next = sweep.next + ((if isLone sweep.doc pos then 1 else 0)
      + (if straddles sweep.doc (pos + 1) then 1 else 0) - (if straddles sweep.doc pos then 1 else 0)) := by
    unfold countComment
    dsimp only
    rw [hoptions.comments, hoptions.multiline, hoptions.markers, Bool.and_false, Bool.false_and, if_neg Bool.false_ne_true,
      Bool.and_self, if_pos rfl, streamCommentChange_eq hgoes hpos]
    rfl
  have hbrace := (countComment options sweep pos).next_styledBrace sweep.doc Style.operator pos
  unfold countToken
  rw [hoptions.braces, Bool.true_and, hbrace, hcomment, byteDepth, byteDepth, Nat.count_succ]
  push_cast
  omega

/--
At the end of a line, the depth of the nested comments becomes that at the start of the next one.
-/
theorem next_countByte (hdoc : sweep.doc.WellFormed) (hgoes : GoesOnBehindLines sweep.doc) (hline : sweep.line = sweep.doc.lineOf pos)
    (hpos : pos < sweep.doc.size) (hcloses : sweep.doc.closesLine true stop pos = endsLine sweep.doc.text pos) :
    (countByte options stop sweep pos).next = sweep.next + (depthAt sweep.doc (pos + 1) - depthAt sweep.doc pos) := by
  have htoken := next_countToken hoptions hgoes hpos
  have hlineOf := @breaksBefore_succ sweep.doc.text pos
  rw [← hdoc.lineOf_eq, ← hdoc.lineOf_eq, startsLine_succ] at hlineOf
  unfold countByte
  rw [hcloses, hoptions.comments, hoptions.multiline, Bool.and_self, Bool.and_true, depthAt, depthAt, hlineOf, ← hline]
  split
  . have hchange : nestingChange sweep.doc sweep.line
        = Nesting.before sweep.doc (sweep.line + 1) - Nesting.before sweep.doc sweep.line := rfl
    show (countToken options sweep pos).next + nestingChange sweep.doc sweep.line = _
    omega
  . simp only [Nat.add_zero]
    omega

end Count

/--
At the start of a line, the depth is what is open at the terminator in front of it.
-/
theorem depthAt_lineStart {line : Nat} (hdoc : doc.WellFormed) (hline : line + 1 < doc.lineCount) :
    let stop := doc.lineStart (line + 1)
    depthAt doc stop = ((doc.countStyled Style.operator 0x7B stop : Int) - doc.countStyled Style.operator 0x7D stop)
      + (Nat.count (isLone doc ·) stop + if isStreamComment (doc.styleAt (stop - 1)) then 1 else 0)
      + Nesting.unpack (doc.lineState line) := by
  intro stop
  obtain ⟨hstart, hlineOf⟩ := hdoc.startsLine_lineStart hline
  have hbefore : doc.styleBefore stop = doc.styleAt (stop - 1) :=
    if_neg (by rw [beq_iff_eq]; exact (hdoc.lineStart_succ_pos hline).ne')
  have hstraddles : straddles doc stop = isStreamComment (doc.styleAt (stop - 1)) := by
    rw [straddles, hbefore, hstart, Bool.or_true, Bool.and_true]
  rw [depthAt, byteDepth, hlineOf, hstraddles]
  rfl

section Run

variable (hoptions : options.CountsComments) (hdoc : doc.WellFormed) (hgoes : GoesOnBehindLines doc)
include hoptions hdoc hgoes

/--
All along a pass, the depth is what has been counted so far.
-/
theorem next_of_iterates {t : ByteScan} (hpos : startsLine doc.text pos = true) (hstop : pos ≤ stop)
    (hrun : Iterates ((byteFold options).folding.more pos) ((byteFold options).folding.step stop)
      ((byteFold options).folding.start doc 0) t) : t.sweep.next = 0x400 + depthAt doc t.pos := by
  have h := (lawful_byteFold options).folding
  refine (hrun.invariant (fun s => (byteFold options).folding.Scans doc s ∧ s.sweep.next = 0x400 + depthAt doc s.pos) ?_
    ⟨h.scans_start, ?_⟩).2
  . intro s hmore ⟨hs, hnext⟩
    have hlt : s.pos < pos := Folding.more_iff.mp hmore
    have hsize : pos ≤ doc.size := le_size_of_startsLine hpos
    have hrelevelled : doc.Relevelled s.sweep.doc := hs.relevelled
    have hsource := hrelevelled.sameSource
    have hdepth := depthAt_relevelled hrelevelled
    have hline : s.sweep.line = s.sweep.doc.lineOf s.pos := hs.line.trans (hsource.lineOf _).symm
    have hcounted := next_countByte hoptions (hsource.wellFormed hdoc) (goesOnBehindLines_relevelled hrelevelled hgoes) hline
      (Nat.lt_of_lt_of_eq (Nat.lt_of_lt_of_le hlt hsize) hsource.size.symm)
      (s.sweep.doc.closesLine_eq (by rw [hsource.text]; exact hpos) hlt hstop true)
    refine ⟨h.scans_step hdoc hpos hs hlt hstop, ?_⟩
    have hstep : ((byteFold options).folding.step stop s).sweep.next = (countByte options stop s.sweep s.pos).next :=
      h.next_step stop s
    rw [hstep, hcounted, hdepth, hdepth, hnext]
    show _ = 0x400 + depthAt doc (s.pos + 1)
    omega
  . show (doc.levelBefore (doc.lineOf 0)).toInt = 0x400 + depthAt doc 0
    rw [depthAt_zero hdoc, hdoc.lineOf_zero]
    rfl

omit hdoc hgoes in
/--
So that is what a line leaves to the next one.
-/
theorem next_level_fold {line : Nat} (hdoc : doc.WellFormed) (hgoes : GoesOnBehindLines doc) (hline : line + 1 < doc.lineCount)
    (hfits : (byteFold options).folding.LevelsFit doc 0 doc.size) :
    (((byteFold options).folding.fold doc 0 doc.size).level line).next.toInt = 0x400 + depthAt doc (doc.lineStart (line + 1)) := by
  have hstop := hdoc.lineStart_le_size (line + 1)
  obtain ⟨t, hrun, _, heq, _, hnext⟩ := (lawful_byteFold options).folding.exists_start hdoc hline hstop hfits
  have hpos : t.pos = doc.lineStart (line + 1) := by
    rw [heq]
    rfl
  have hcounted := next_of_iterates hoptions hdoc hgoes (hdoc.startsLine_lineStart hline).1 hstop hrun
  rw [hpos] at hcounted
  rw [← hcounted, show t.sweep.next = _ from hnext, Document.levelBefore, if_pos (Nat.succ_pos line), Nat.add_sub_cancel]

end Run

/--
In a text that is coloured and folded from its start, the depth that a line leaves to the next one is that of the braces in
front of there, of the stream comment that is open at its terminator and of the nested comments that are, and there is
one more for each lone byte of a stream comment's style so far.
-/
theorem style_level_eq_braces_and_comments (session : Session) (hsession : session.lexer = lexer) (text : Array UInt8)
    (encoding : Encoding) (options : Options) (hoptions : (FoldOptions.read options).CountsComments)
    (hfits : LevelsFit (session.colour (.fresh text encoding options) 0 text.size)) (line : Nat) :
    let styled := session.style (.fresh text encoding options) 0 text.size
    let stop := styled.lineStart (line + 1)
    line + 1 < styled.lineCount →
      (styled.level line).next.toInt
        = 0x400 + ((styled.countStyled Style.operator 0x7B stop : Int) - styled.countStyled Style.operator 0x7D stop)
          + (if isStreamComment (styled.styleAt (stop - 1)) then 1 else 0) + Nesting.unpack (styled.lineState line)
          + Nat.count (isLone styled ·) stop := by
  intro styled stop hline
  have hdoc : (Document.fresh text encoding options).WellFormed := Document.wellFormed_fresh text encoding options
  have hstyled : styled = session.fold (session.colour (.fresh text encoding options) 0 text.size) 0 text.size := rfl
  rcases Nat.eq_zero_or_pos text.size with hempty | hsize
  . obtain rfl : text = #[] := Array.eq_empty_of_size_eq_zero hempty
    have hline : line + 1 < (Document.fresh #[] encoding options).lineCount := hline
    exact absurd (Nat.lt_of_lt_of_le (hdoc.lineStart_succ_pos hline) (hdoc.lineStart_le_size _)) (Nat.lt_irrefl 0)
  have hcolour : session.colour (.fresh text encoding options) 0 text.size
      = colour session.keywords ⟨0, text.size, Style.default⟩ (.fresh text encoding options) := by
    refine (session.colour_whole hdoc hsize).trans ?_
    rw [hsession]
    rfl
  have hsource := sameSource_colour hdoc session.keywords
  have hgoes := goesOnBehindLines_colour hdoc session.keywords
  rw [show (Document.fresh text encoding options).size = text.size from rfl, ← hcolour] at hsource hgoes
  generalize session.colour (.fresh text encoding options) 0 text.size = coloured at *
  have hread : coloured.options = options := hsource.options
  have hwell := hsource.wellFormed hdoc
  have hfold : styled = (byteFold (.read options)).folding.fold coloured 0 coloured.size := by
    rw [hstyled, show text.size = coloured.size from hsource.size.symm]
    exact Folding.Drives.fold_eq (drives_folding hsession hoptions.enabled) hread hwell startsLine_zero
      (Nat.lt_of_lt_of_eq hsize hsource.size.symm) (.inr rfl)
  have hrelevelled : coloured.Relevelled styled :=
    hfold ▸ (lawful_byteFold (.read options)).folding.relevelled_fold coloured 0 coloured.size
  have hsame := hrelevelled.sameSource
  have hfits' := hfits (by rw [hread]; exact hoptions.enabled)
  rw [hread] at hfits'
  have hlevel := next_level_fold hoptions hwell hgoes (hsame.lineCount ▸ hline) hfits'
  rw [← hfold, ← depthAt_relevelled hrelevelled, ← show styled.lineStart = coloured.lineStart by
    unfold Document.lineStart; rw [hsame.lines], depthAt_lineStart (hsame.wellFormed hwell) hline] at hlevel
  rw [hlevel]
  simp only [stop]
  omega

/--
A block with a nested comment over the end of its first line, a stream comment over that of its second one, and a keyword of
one byte.
-/
theorem style_level_eq_braces_and_comments_open :
    let session := Session.ofLexer lexer
    let text := "\x7b/+\n+//*\n*/\n///@A\n\x7d".toUTF8.data
    let options := .ofList [("fold", "1"), ("fold.comment", "1"), ("fold.rust.comment.explicit", "0")]
    let styled := session.style (.fresh text .singleByte options) 0 text.size
    (styled.level 0).next.toInt = 0x402 ∧ (styled.level 1).next.toInt = 0x402 ∧ (styled.level 2).next.toInt = 0x401
      ∧ (styled.level 3).next.toInt = 0x402 := by
  intro session text options styled
  have hoptions : (FoldOptions.read options).CountsComments :=
    ⟨by decide +kernel, by decide +kernel, by decide +kernel, by decide +kernel, by decide +kernel⟩
  have hfits : LevelsFit (session.colour (.fresh text .singleByte options) 0 text.size) :=
    fun _ => Folding.levelsFit_of_holdsAlong (show holdsAlong _ _ _ 20 _ = true by decide +kernel)
  have hlevel := style_level_eq_braces_and_comments session rfl text .singleByte options hoptions hfits
  have hdepth : ∀ line < 4, line + 1 < styled.lineCount := by decide +kernel
  refine ⟨(hlevel 0 (hdepth 0 (by decide))).trans ?_, (hlevel 1 (hdepth 1 (by decide))).trans ?_,
    (hlevel 2 (hdepth 2 (by decide))).trans ?_, (hlevel 3 (hdepth 3 (by decide))).trans ?_⟩
  . decide +kernel
  . decide +kernel
  . decide +kernel
  . decide +kernel

/--
Without the lone byte, this is not so: the keyword opens a block that no line closes.
-/
theorem style_level_lone_keyword :
    let session := Session.ofLexer lexer
    let text := "/// @A\nx".toUTF8.data
    let options := .ofList [("fold", "1"), ("fold.comment", "1"), ("fold.rust.comment.explicit", "0")]
    let styled := session.style (.fresh text .singleByte options) 0 text.size
    let stop := styled.lineStart 1
    (FoldOptions.read options).CountsComments ∧ LevelsFit (session.colour (.fresh text .singleByte options) 0 text.size)
      ∧ 1 < styled.lineCount ∧ (styled.level 0).next.toInt
        ≠ 0x400 + ((styled.countStyled Style.operator 0x7B stop : Int) - styled.countStyled Style.operator 0x7D stop)
          + (if isStreamComment (styled.styleAt (stop - 1)) then 1 else 0) + Nesting.unpack (styled.lineState 0) := by
  intro session text options styled stop
  refine ⟨⟨by decide +kernel, by decide +kernel, by decide +kernel, by decide +kernel, by decide +kernel⟩, ?_,
    by decide +kernel, by decide +kernel⟩
  exact fun _ => Folding.levelsFit_of_holdsAlong (show holdsAlong _ _ _ 9 _ = true by decide +kernel)

end Rust

end Highlight
