import Highlight.Proofs.Fold.Front

/-!
Folding Rust as a pass over bytes.
-/

namespace Highlight.Rust

open LineIndex

/--
What comments add to the depth at `pos`.
-/
def countComment (options : FoldOptions) (sweep : Sweep) (pos : Nat) : Sweep :=
  let doc := sweep.doc
  let style := doc.styleAt pos
  let sweep :=
    if options.comments && options.multiline then
      sweep.shift (streamCommentChange isStreamComment (doc.styleBefore pos) style (doc.styleAt (pos + 1))
        (endsLine doc.text pos))
    else
      sweep
  if options.comments && options.markers && (style == Style.commentLine || options.markersAnywhere) then
    sweep.shift (markerChange options doc pos)
  else
    sweep

/--
What the byte at `pos` adds to the depth, apart from the nested comments.
-/
def countToken (options : FoldOptions) (sweep : Sweep) (pos : Nat) : Sweep :=
  if options.braces && sweep.doc.styleAt pos == Style.operator then
    (countComment options sweep pos).brace (sweep.doc.byteAt pos 0x20)
  else
    countComment options sweep pos

def countByte (options : FoldOptions) (stop : Nat) (sweep : Sweep) (pos : Nat) : Sweep :=
  if sweep.doc.closesLine true stop pos && (options.comments && options.multiline) then
    (countToken options sweep pos).shift (nestingChange sweep.doc sweep.line)
  else
    countToken options sweep pos

def byteFold (options : FoldOptions) : ByteFold :=
  { count := countByte options
    closingLast := true
    atElse := options.braces && options.atElse
    compact := options.compact }

section Count

variable {options : FoldOptions} {stop pos pos' : Nat} {sweep : Sweep}

theorem countComment_eq (options : FoldOptions) (sweep : Sweep) (pos : Nat) :
    ∃ change, countComment options sweep pos = sweep.shift change := by
  unfold countComment
  dsimp only
  split
  . split
    . exact ⟨_, Sweep.shift_shift _ _ _⟩
    . exact ⟨_, rfl⟩
  . split
    . exact ⟨_, rfl⟩
    . exact ⟨0, sweep.shift_zero.symm⟩

theorem doc_countToken (options : FoldOptions) (sweep : Sweep) (pos : Nat) :
    (countToken options sweep pos).doc = sweep.doc := by
  obtain ⟨change, hcomment⟩ := countComment_eq options sweep pos
  unfold countToken
  rw [hcomment]
  split
  . exact Sweep.doc_brace _ _
  . rfl

theorem line_countToken (options : FoldOptions) (sweep : Sweep) (pos : Nat) :
    (countToken options sweep pos).line = sweep.line := by
  obtain ⟨change, hcomment⟩ := countComment_eq options sweep pos
  unfold countToken
  rw [hcomment]
  split
  . exact Sweep.line_brace _ _
  . rfl

theorem markerChange_restyle (options : FoldOptions) (doc : Document) (styles : Array Style) (lineStates : Array LineState)
    (pos : Nat) : markerChange options (doc.restyle styles lineStates) pos = markerChange options doc pos := by
  unfold markerChange
  simp only [Document.matchesAt_restyle]

variable {styles : Array Style} {lineStates : Array LineState} (hagree : sweep.doc.AgreesBelow styles lineStates pos')
  (hpos : startsLine sweep.doc.text pos' = true) (hlt : pos < pos')
include hagree hpos hlt

theorem countComment_restyle :
    countComment options (sweep.restyle styles lineStates) pos
      = (countComment options sweep pos).restyle styles lineStates := by
  unfold countComment
  dsimp only
  rw [show (sweep.restyle styles lineStates).doc = sweep.doc.restyle styles lineStates from rfl, hagree.styleAt hlt,
    hagree.styleBefore (Nat.le_of_lt hlt), markerChange_restyle]
  rw [show (sweep.doc.restyle styles lineStates).text = sweep.doc.text from rfl, hagree.streamCommentChange hpos hlt]
  split
  . split
    . rfl
    . rfl
  . split
    . rfl
    . rfl

theorem nestingChange_restyle (hline : sweep.line = sweep.doc.lineOf pos) (hdoc : sweep.doc.WellFormed) :
    nestingChange (sweep.doc.restyle styles lineStates) sweep.line = nestingChange sweep.doc sweep.line := by
  have hbelow : sweep.line < sweep.doc.lineOf pos' := by
    rw [hline, hdoc.lineOf_eq, hdoc.lineOf_eq]
    exact breaksBefore_lt hlt hpos
  rw [nestingChange, nestingChange, Nesting.before, Nesting.before, hagree.lineState hbelow,
    hagree.lineStateAbove? hbelow]

theorem countToken_restyle :
    countToken options (sweep.restyle styles lineStates) pos
      = (countToken options sweep pos).restyle styles lineStates := by
  unfold countToken
  rw [countComment_restyle hagree hpos hlt,
    show (sweep.restyle styles lineStates).doc = sweep.doc.restyle styles lineStates from rfl, hagree.styleAt hlt]
  split
  . exact Sweep.brace_restyle _
  . rfl

end Count

theorem lawful_byteFold (options : FoldOptions) : (byteFold options).Lawful where
  doc_count := by
    intro stop sweep pos
    show (countByte options stop sweep pos).doc = sweep.doc
    unfold countByte
    split
    . exact doc_countToken options sweep pos
    . exact doc_countToken options sweep pos
  line_count := by
    intro stop sweep pos
    show (countByte options stop sweep pos).line = sweep.line
    unfold countByte
    split
    . exact line_countToken options sweep pos
    . exact line_countToken options sweep pos
  count_restyle := by
    intro styles lineStates pos pos' stop sweep hdoc hagree hpos hlt hstop hline
    show countByte options pos' (sweep.restyle styles lineStates) pos
      = (countByte options stop sweep pos).restyle styles lineStates
    have hcloses : (sweep.doc.restyle styles lineStates).closesLine true pos' pos = endsLine sweep.doc.text pos :=
      (sweep.doc.restyle styles lineStates).closesLine_eq hpos hlt (Nat.le_refl pos') true
    unfold countByte
    rw [countToken_restyle hagree hpos hlt,
      show (sweep.restyle styles lineStates).doc = sweep.doc.restyle styles lineStates from rfl,
      show (sweep.restyle styles lineStates).line = sweep.line from rfl,
      nestingChange_restyle hagree hpos hlt hline hdoc, hcloses, sweep.doc.closesLine_eq hpos hlt hstop]
    split
    . exact Sweep.shift_restyle _
    . rfl

theorem foldByte_eq (options : FoldOptions) (span : Span) (sweep : Sweep) (pos : Nat)
    (hbefore : span.styleBefore sweep.doc pos = sweep.doc.styleBefore pos) :
    foldByte options span sweep pos = (byteFold options).foldByte span.stop sweep pos := by
  have hright : (byteFold options).foldByte span.stop sweep pos
      = (if sweep.doc.closesLine true span.stop pos then
          (countByte options span.stop sweep pos).closeLine
            ((countByte options span.stop sweep pos).depth (options.braces && options.atElse)) options.compact
        else
          countByte options span.stop sweep pos).see (sweep.doc.byteAt pos 0x20) := rfl
  rw [hright]
  unfold foldByte
  extract_lets doc b style endsLine before streamed marked braced nested closed
  have hmarked : marked = countComment options sweep pos := by
    simp only [marked, streamed, before, countComment, hbefore, doc, style, endsLine]
  have hbraced : braced = countToken options sweep pos := by
    simp only [braced, hmarked, countToken, doc, style, b]
  have hcloses : (endsLine || pos + 1 == span.stop) = sweep.doc.closesLine true span.stop pos := by
    rw [Document.closesLine, Bool.true_and]
  have hnested : sweep.doc.closesLine true span.stop pos = true → nested = countByte options span.stop sweep pos := by
    intro h
    simp only [nested, hbraced, line_countToken, countByte, h, Bool.true_and, doc]
  congr 1
  simp only [closed, hcloses, hbraced]
  cases h : sweep.doc.closesLine true span.stop pos with
  | false => simp [countByte, h]
  | true => simp [hnested h, Sweep.depth]

/--
The depths that a fold pass over the whole document stores fit.
-/
def LevelsFit (doc : Document) : Prop :=
  (FoldOptions.read doc.options).enabled = true → (byteFold (.read doc.options)).folding.LevelsFit doc 0 doc.size

theorem fold_eq {doc : Document} {span : Span} {start stop : Nat} (hle : start ≤ stop)
    (hspan : doc.wholeLines span = doc.spanOf start stop) (henabled : (FoldOptions.read doc.options).enabled = true)
    (keywords : Keywords) : fold keywords span doc = (byteFold (.read doc.options)).folding.fold doc start stop := by
  have hstop : (doc.spanOf start stop).stop = stop := by
    show start + (stop - start) = stop
    omega
  have hover : (Sweep.start doc (doc.lineOf start)).over (doc.spanOf start stop)
      (foldByte (.read doc.options) (doc.spanOf start stop))
      = (Sweep.start doc (doc.lineOf start)).over (doc.spanOf start stop) ((byteFold (.read doc.options)).foldByte stop) := by
    refine Sweep.over_congr (Sweep.Relevels doc) ?_ (.start doc _)
    intro sweep pos hsweep hpos
    have hbefore : (doc.spanOf start stop).styleBefore sweep.doc pos = sweep.doc.styleBefore pos := by
      unfold Span.styleBefore
      split
      . next heq =>
        rw [beq_iff_eq] at heq
        rw [heq]
        exact (Document.styleBefore_congr (fun i _ => by rw [hsweep.styles])).symm
      . next hne =>
        rw [beq_iff_eq] at hne
        have hpos : start ≤ pos := hpos
        have hne : pos ≠ start := hne
        rw [Document.styleBefore, if_neg (by rw [beq_iff_eq]; omega)]
    have hbyte := foldByte_eq (.read doc.options) (doc.spanOf start stop) sweep pos hbefore
    rw [hstop] at hbyte
    exact ⟨hbyte, hbyte ▸ relevels_foldByte _ _ hsweep pos⟩
  rw [ByteFold.fold_eq_over doc hle, ← hover]
  unfold fold
  dsimp only
  rw [if_pos henabled, hspan]
  rfl

theorem fold_of_disabled {doc : Document} (hdisabled : (FoldOptions.read doc.options).enabled = false)
    (keywords : Keywords) (span : Span) : fold keywords span doc = doc := by
  unfold fold
  dsimp only
  rw [if_neg (by rw [hdisabled]; decide)]

section Overlaid

open Sweep (Twin)

variable {options : FoldOptions} {base base' : Document} {sweep sweep' : Sweep}

theorem markerChange_congr {doc doc' : Document} (options : FoldOptions) (htext : doc'.text = doc.text) (pos : Nat) :
    markerChange options doc' pos = markerChange options doc pos := by
  unfold markerChange Document.matchesAt
  simp only [Document.holdsAt_congr htext]

theorem twin_countComment (h : Twin base base' sweep sweep') (pos : Nat) :
    Twin base base' (countComment options sweep pos) (countComment options sweep' pos) := by
  have hstyle : ∀ pos, sweep'.doc.styleAt pos = sweep.doc.styleAt pos := fun pos => h.congr (f := (·.styleAt pos)) fun _ _ => rfl
  have hbefore : sweep'.doc.styleBefore pos = sweep.doc.styleBefore pos := h.congr (f := (·.styleBefore pos)) fun _ _ => rfl
  have htext : sweep'.doc.text = sweep.doc.text := h.congr (f := (·.text)) fun _ _ => rfl
  unfold countComment
  dsimp only
  rw [hstyle, hstyle, hbefore, htext, markerChange_congr options htext]
  exact .ite (.shift (.ite (h.shift _) h) _) (.ite (h.shift _) h)

theorem twin_countToken (h : Twin base base' sweep sweep') (pos : Nat) :
    Twin base base' (countToken options sweep pos) (countToken options sweep' pos) := by
  have hstyle : sweep'.doc.styleAt pos = sweep.doc.styleAt pos := h.congr (f := (·.styleAt pos)) fun _ _ => rfl
  have hbyte : sweep'.doc.byteAt pos 0x20 = sweep.doc.byteAt pos 0x20 := h.congr (f := (·.byteAt pos 0x20)) fun _ _ => rfl
  unfold countToken
  rw [hstyle, hbyte]
  exact .ite ((twin_countComment h pos).brace _) (twin_countComment h pos)

theorem twin_countByte (stop : Nat) (h : Twin base base' sweep sweep') (pos : Nat) :
    Twin base base' (countByte options stop sweep pos) (countByte options stop sweep' pos) := by
  have hcloses : sweep'.doc.closesLine true stop pos = sweep.doc.closesLine true stop pos :=
    h.congr (f := (·.closesLine true stop pos)) fun _ _ => rfl
  have hnesting : nestingChange sweep'.doc sweep.line = nestingChange sweep.doc sweep.line :=
    h.congr (f := (nestingChange · sweep.line)) fun _ _ => rfl
  unfold countByte
  rw [hcloses, h.line, hnesting]
  exact .ite ((twin_countToken h pos).shift _) (twin_countToken h pos)

/--
What a pass writes does not depend on the levels that it writes over.
-/
theorem overlaid_fold (options : FoldOptions) {start stop : Nat} (h : base.Relevelled base')
    (hlevel : base'.levelBefore (base.lineOf start) = base.levelBefore (base.lineOf start)) (hle : start ≤ stop) :
    Document.Overlaid base base' ((byteFold options).folding.fold base start stop) ((byteFold options).folding.fold base' start stop) :=
  ByteFold.overlaid_fold (twin_countByte stop) h hlevel hle

end Overlaid

/--
No marker goes on behind the end of a line.
-/
def FoldOptions.MarkersInLine (options : FoldOptions) : Prop :=
  options.ownMarkers = true →
    0x0A ∉ (Utf8.encode options.openMarker).dropLast ∧ 0x0A ∉ (Utf8.encode options.closeMarker).dropLast

instance (options : FoldOptions) : Decidable options.MarkersInLine :=
  inferInstanceAs (Decidable (_ → _))

section Front

open Sweep (Abreast)

variable {options : FoldOptions} {limit pos : Nat}

theorem markerChange_front (hmarkers : options.MarkersInLine) {storing : Prop} {doc doc' : Document}
    (h : doc.AlikeUpTo storing limit doc') (hpos : pos < limit) : markerChange options doc' pos = markerChange options doc pos := by
  unfold markerChange
  split
  . next hown =>
    obtain ⟨hopen, hclose⟩ := hmarkers hown
    rw [h.matchesAt (.inl hpos) hopen, h.matchesAt (.inl hpos) hclose]
  . rw [h.matchesAt (.inl hpos) (s := "//\x7b") (by decide), h.matchesAt (.inl hpos) (s := "//\x7d") (by decide)]

theorem abreast_countComment (hmarkers : options.MarkersInLine) {storing : Prop} {sweep sweep' : Sweep}
    (h : Abreast storing limit sweep sweep') (hpos : pos < limit) :
    Abreast storing limit (countComment options sweep pos) (countComment options sweep' pos) := by
  unfold countComment
  dsimp only
  rw [h.docs.styleAt (.inl hpos), h.docs.styleBefore (Nat.le_of_lt hpos), h.docs.streamCommentChange hpos,
    markerChange_front hmarkers h.docs hpos]
  exact .ite (.shift (.ite (h.shift _) h) _) (.ite (h.shift _) h)

theorem abreast_countToken (hmarkers : options.MarkersInLine) {storing : Prop} {sweep sweep' : Sweep}
    (h : Abreast storing limit sweep sweep') (hpos : pos < limit) :
    Abreast storing limit (countToken options sweep pos) (countToken options sweep' pos) := by
  have hcomment := abreast_countComment hmarkers h hpos
  unfold countToken
  rw [h.docs.styleAt (.inl hpos), h.docs.byteAt (.inl hpos)]
  exact .ite (hcomment.brace _) hcomment

/--
What a byte adds to the depth depends on the bytes and styles of its line up to the next one, and on the states of its
line and of the line above.
-/
theorem frontal_byteFold (hmarkers : options.MarkersInLine) : (byteFold options).Frontal True where
  toLawful := lawful_byteFold options
  count := by
    intro limit pos stop stop' sweep sweep' h hpos hline hstop hsize hstop' hsize'
    have htoken := abreast_countToken hmarkers h hpos
    have hbelow : sweep.line < sweep.doc.linesTo limit := by
      rw [hline]
      exact h.docs.wellFormed.lineOf_lt_linesTo hpos
    have hnesting : nestingChange sweep'.doc sweep'.line = nestingChange sweep.doc sweep.line := by
      rw [h.line, nestingChange, nestingChange, Nesting.before, Nesting.before, h.docs.lineState trivial hbelow,
        h.docs.lineStateAbove? trivial hbelow]
    show Abreast True limit (countByte options stop sweep pos) (countByte options stop' sweep' pos)
    unfold countByte
    rw [h.docs.closesLine hpos hstop hsize hstop' hsize', hnesting]
    exact .ite (htoken.shift _) htoken

end Front

end Highlight.Rust
