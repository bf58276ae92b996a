import Highlight.Proofs.Fold.Stored
import Highlight.Proofs.Rust.Levels

/-!
The lines that folding Rust leaves white: those that show nothing in front of the last byte of the text. So the last line is
white, too, where that byte is all that it shows.
-/

namespace Highlight

namespace Rust

open LineIndex

variable {options : FoldOptions}

/--
Nothing that changes the depth makes a byte visible.
-/
theorem visible_countByte (options : FoldOptions) (stop : Nat) (sweep : Sweep) (pos : Nat) :
    (countByte options stop sweep pos).visible = sweep.visible := by
  obtain ⟨change, hcomment⟩ := countComment_eq options sweep pos
  have htoken : (countToken options sweep pos).visible = sweep.visible := by
    unfold countToken
    rw [hcomment]
    split
    . exact Sweep.visible_brace _ _
    . rfl
  unfold countByte
  split
  . exact htoken
  . exact htoken

/--
Each line that has a byte is stored by what stands in front of its last one.
-/
theorem isWhite_fold {doc : Document} (line : Nat) (hdoc : doc.WellFormed) (hcompact : options.compact = true)
    (hfits : (byteFold options).DepthsFit doc) :
    let folded := (byteFold options).folding.fold doc 0 doc.size
    line < folded.lineCount → folded.lineStart line < folded.lineStart (line + 1) →
      ((folded.level line).isWhite = true
        ↔ ∀ i, folded.lineStart line ≤ i → i + 1 < folded.lineStart (line + 1) → Code.isSpace (folded.byteAt i 0x20).toNat = true) := by
  intro folded
  have h := lawful_byteFold options
  have hsame := (h.folding.relevelled_fold doc 0 doc.size).sameSource
  have hstart : folded.lineStart = doc.lineStart := by
    unfold Document.lineStart
    rw [hsame.lines]
  have hbyte : folded.byteAt = doc.byteAt := by
    unfold Document.byteAt
    rw [hsame.text]
  rw [hsame.lineCount, hstart, hbyte]
  intro hline hlt
  rw [h.level_fold hdoc hlt (.inl rfl), Level.isWhite_compose (hfits line hline hlt),
    ← h.visible_closing hdoc (visible_countByte options) hlt, show (byteFold options).compact = true from hcompact, Bool.and_true,
    beq_iff_eq]

/--
A session that folds from the start of a text folds what it has coloured.
-/
theorem style_fresh (session : Session) (hsession : session.lexer = lexer) (text : Array UInt8) (encoding : Encoding)
    (options : Options) (henabled : (FoldOptions.read options).enabled = true) (hsize : 0 < text.size) :
    let coloured := session.colour (.fresh text encoding options) 0 text.size
    coloured.WellFormed ∧ coloured.size = text.size
      ∧ session.style (.fresh text encoding options) 0 text.size = (byteFold (.read options)).folding.fold coloured 0 coloured.size := by
  intro coloured
  have hdoc : (Document.fresh text encoding options).WellFormed := Document.wellFormed_fresh text encoding options
  have hcolour : coloured = colour session.keywords ⟨0, text.size, Style.default⟩ (.fresh text encoding options) := by
    refine (session.colour_whole hdoc hsize).trans ?_
    rw [hsession]
    rfl
  have hsource : (Document.fresh text encoding options).SameSource coloured := hcolour ▸ sameSource_colour hdoc session.keywords
  have hwell := hsource.wellFormed hdoc
  have hcoloured : coloured.size = text.size := hsource.size
  refine ⟨hwell, hcoloured, ?_⟩
  rw [hcoloured]
  exact Folding.Drives.fold_eq (drives_folding hsession henabled) hsource.options hwell startsLine_zero hsize (.inr hcoloured.symm)

/--
In a text that is coloured and folded from its start, a line with a byte is white if all of its bytes are spaces, but for the last
byte of the text, which is not looked at. So these are the blank lines, up to one that shows nothing but the last byte of the text.
-/
theorem isWhite_style_iff_blank (session : Session) (hsession : session.lexer = lexer) (text : Array UInt8) (encoding : Encoding)
    (options : Options) (henabled : (FoldOptions.read options).enabled = true) (hcompact : (FoldOptions.read options).compact = true)
    (hfits : (byteFold (.read options)).DepthsFit (session.colour (.fresh text encoding options) 0 text.size)) (line : Nat) :
    let styled := session.style (.fresh text encoding options) 0 text.size
    let blankUpTo stop := ∀ i, styled.lineStart line ≤ i → i < stop → Code.isSpace (styled.byteAt i 0x20).toNat = true
    line < styled.lineCount → styled.lineStart line < styled.lineStart (line + 1) →
      ((styled.level line).isWhite = true ↔ blankUpTo (min (styled.lineStart (line + 1)) (text.size - 1)))
        ∧ (line + 1 < styled.lineCount ∨ Code.isSpace (styled.byteAt (text.size - 1) 0x20).toNat = true →
          ((styled.level line).isWhite = true ↔ blankUpTo (styled.lineStart (line + 1)))) := by
  intro styled blankUpTo hline hlt
  have hdoc : (Document.fresh text encoding options).WellFormed := Document.wellFormed_fresh text encoding options
  rcases Nat.eq_zero_or_pos text.size with hempty | hsize
  . obtain rfl : text = #[] := Array.eq_empty_of_size_eq_zero hempty
    exact absurd (Nat.lt_of_lt_of_le hlt (hdoc.lineStart_le_size (line + 1))) (Nat.not_lt_zero _)
  obtain ⟨hwell, hcoloured, hfold⟩ := style_fresh session hsession text encoding options henabled hsize
  have hstored := isWhite_fold line hwell hcompact hfits
  have hrelevelled := (lawful_byteFold (.read options)).folding.relevelled_fold
    (session.colour (.fresh text encoding options) 0 text.size) 0 (session.colour (.fresh text encoding options) 0 text.size).size
  rw [← hfold] at hrelevelled hstored
  have hsame := hrelevelled.sameSource
  have hstyled : styled.WellFormed := hsame.wellFormed hwell
  have hsize' : styled.size = text.size := hsame.size.trans hcoloured
  have hstop := hstyled.lineStart_le_size (line + 1)
  have hterminated : line + 1 < styled.lineCount → Code.isSpace (styled.byteAt (styled.lineStart (line + 1) - 1) 0x20).toNat = true :=
    fun hnext => isSpace_of_endsLine (hstyled.endsLine_of_lineStart_succ hnext) _
  have hlast : ¬ line + 1 < styled.lineCount → styled.lineStart (line + 1) = text.size :=
    fun hnext => (hstyled.lineStart_of_lineCount_le (Nat.le_of_not_lt hnext)).trans hsize'
  have hwhite : (styled.level line).isWhite = true ↔ ∀ i, styled.lineStart line ≤ i → i + 1 < styled.lineStart (line + 1) →
      Code.isSpace (styled.byteAt i 0x20).toNat = true := hstored hline hlt
  refine ⟨hwhite.trans ⟨fun hall i hle hi => ?_, fun hall i hle hi => hall i hle (by omega)⟩,
    fun hspace => hwhite.trans ⟨fun hall i hle hi => ?_, fun hall i hle hi => hall i hle (by omega)⟩⟩
  . rcases Nat.lt_or_ge (i + 1) (styled.lineStart (line + 1)) with hbefore | hlastByte
    . exact hall i hle hbefore
    . obtain rfl : i = styled.lineStart (line + 1) - 1 := by omega
      exact hterminated (Decidable.by_contra fun hnext => by have := hlast hnext; omega)
  . rcases Nat.lt_or_ge (i + 1) (styled.lineStart (line + 1)) with hbefore | hlastByte
    . exact hall i hle hbefore
    . obtain rfl : i = styled.lineStart (line + 1) - 1 := by omega
      by_cases hnext : line + 1 < styled.lineCount
      . exact hterminated hnext
      . rw [hlast hnext]
        exact hspace.resolve_left hnext

/--
Blank lines and others with each kind of terminator, and a last line that ends with a space.
-/
theorem isWhite_style_iff_blank_terminators :
    let session := Session.ofLexer lexer
    let text := "\x7b\r\n \r\n\t\r\n\x7d ".toUTF8.data
    let styled := session.style (.fresh text .singleByte (.ofList [("fold", "1")])) 0 text.size
    (styled.level 0).isWhite = false ∧ (styled.level 1).isWhite = true ∧ (styled.level 2).isWhite = true
      ∧ (styled.level 3).isWhite = false := by
  intro session text styled
  have hwhite := isWhite_style_iff_blank session rfl text .singleByte (.ofList [("fold", "1")]) (by decide +kernel) (by decide +kernel)
    (by decide +kernel)
  obtain ⟨_, hwhite0⟩ := hwhite 0 (by decide +kernel) (by decide +kernel)
  obtain ⟨_, hwhite1⟩ := hwhite 1 (by decide +kernel) (by decide +kernel)
  obtain ⟨_, hwhite2⟩ := hwhite 2 (by decide +kernel) (by decide +kernel)
  obtain ⟨_, hwhite3⟩ := hwhite 3 (by decide +kernel) (by decide +kernel)
  have hspaces : ∀ i < 9, 3 ≤ i → Code.isSpace (styled.byteAt i 0x20).toNat = true := by decide +kernel
  have hlines : styled.lineStart 1 = 3 ∧ styled.lineStart 2 = 6 ∧ styled.lineStart 3 = 9 := by decide +kernel
  have hblank1 : ∀ i, styled.lineStart 1 ≤ i → i < styled.lineStart 2 → Code.isSpace (styled.byteAt i 0x20).toNat = true := by
    rw [hlines.1, hlines.2.1]
    exact fun i hle hlt => hspaces i (by omega) hle
  have hblank2 : ∀ i, styled.lineStart 2 ≤ i → i < styled.lineStart 3 → Code.isSpace (styled.byteAt i 0x20).toNat = true := by
    rw [hlines.2.1, hlines.2.2]
    exact fun i hle hlt => hspaces i hlt (by omega)
  refine ⟨?_, (hwhite1 (.inl (by decide +kernel))).mpr hblank1, (hwhite2 (.inl (by decide +kernel))).mpr hblank2, ?_⟩
  . rw [Bool.eq_false_iff, ne_eq, hwhite0 (.inl (by decide +kernel))]
    exact fun hall => absurd (hall 0 (by decide +kernel) (by decide +kernel)) (by decide +kernel)
  . rw [Bool.eq_false_iff, ne_eq, hwhite3 (.inr (by decide +kernel))]
    exact fun hall => absurd (hall 9 (by decide +kernel) (by decide +kernel)) (by decide +kernel)

/--
A last line that shows its last byte only is white.
-/
theorem isWhite_style_last_byte :
    let session := Session.ofLexer lexer
    let text := "\x7b\n\x7d".toUTF8.data
    let options := .ofList [("fold", "1")]
    let styled := session.style (.fresh text .singleByte options) 0 text.size
    (FoldOptions.read options).enabled = true ∧ (FoldOptions.read options).compact = true
      ∧ (byteFold (.read options)).DepthsFit (session.colour (.fresh text .singleByte options) 0 text.size)
      ∧ (styled.level 1).isWhite = true ∧ Code.isSpace (styled.byteAt (styled.lineStart 1) 0x20).toNat = false := by
  intro session text options styled
  exact ⟨by decide +kernel, by decide +kernel, by decide +kernel, by decide +kernel, by decide +kernel⟩

end Rust

end Highlight
