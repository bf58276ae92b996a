import Highlight.Proofs.Fold.Overlay
import Highlight.Proofs.Gibiane.Restart

/-!
Folding Gibiane over other levels. The one level that a pass goes by is that of the line it starts from, of which it
takes the depth.
-/

namespace Highlight.Gibiane

open LineIndex

variable {base base' : Document}

namespace FoldScan

variable {compact : Bool} {span : Span} {s s' : FoldScan} {levels : Array Level}

/--
The same scan over a document with other levels.
-/
def relevel (levels : Array Level) (s : FoldScan) : FoldScan :=
  { s with sweep := { s.sweep with doc := { s.sweep.doc with levels } } }

theorem place_relevel (span : Span) (s : FoldScan) (pos : Nat) :
    (s.relevel levels).place span pos = (s.place span pos).relevel levels := by
  unfold place
  dsimp only
  rw [placeWord_eq, placeWord_eq]
  unfold placeComment
  show (if (Code.is (s.sweep.doc.byteAt pos 0x20).toNat '*' && (s.secondBehindLineEnd || s.behindLineEnd) || s.inComment) = true
    then _ else _) = _
  split
  . rfl
  . rfl

theorem turnAt_relevel (s : FoldScan) (stop pos : Nat) : (s.relevel levels).turnAt stop pos = s.turnAt stop pos :=
  rfl

/--
The same scan over documents in which the same levels have been written over those of `base` and `base'`.
-/
structure Twin (base base' : Document) (s s' : FoldScan) : Prop where
  sweep : s.sweep.Twin base base' s'.sweep
  eq : s' = { s with sweep := s'.sweep }

namespace Twin

theorem exists_relevel (h : Twin base base' s s') : ∃ levels, s' = s.relevel levels := by
  obtain ⟨levels, _, hdoc⟩ := h.sweep.overlaid.relevelled
  refine ⟨levels, ?_⟩
  rw [h.eq, h.sweep.eq, hdoc]
  rfl

theorem count (h : Twin base base' s s') (span : Span) (pos : Nat) :
    Twin base base' ((s.place span pos).turnBy ((s.place span pos).turnAt span.stop pos))
      ((s'.place span pos).turnBy ((s'.place span pos).turnAt span.stop pos)) := by
  have hoverlaid := h.sweep.overlaid
  obtain ⟨levels, rfl⟩ := h.exists_relevel
  obtain ⟨wordStart, inComment, visible, hplace⟩ := place_spec span s pos
  rw [place_relevel, turnAt_relevel]
  refine ⟨⟨?_, rfl⟩, rfl⟩
  rw [hplace]
  exact hoverlaid

theorem endByte (h : Twin base base' s s') (compact : Bool) (b : UInt8) (pos : Nat) :
    Twin base base' (s.endByte compact b pos) (s'.endByte compact b pos) := by
  have hends : endsLine s'.sweep.doc.text pos = endsLine s.sweep.doc.text pos :=
    h.sweep.congr (f := (endsLine ·.text pos)) fun _ _ => rfl
  have hlevel : s'.sweep.plainLevel compact = s.sweep.plainLevel compact := by
    rw [h.sweep.eq]
    rfl
  unfold FoldScan.endByte
  dsimp only
  rw [hends, hlevel, h.eq]
  split
  . exact ⟨(h.sweep.storeLevel _).see b, rfl⟩
  . exact ⟨h.sweep.see b, rfl⟩

theorem step (h : Twin base base' s s') (compact : Bool) (span : Span) (pos : Nat) :
    Twin base base' (s.step compact span pos) (s'.step compact span pos) := by
  have hbyte : s'.sweep.doc.byteAt pos 0x20 = s.sweep.doc.byteAt pos 0x20 :=
    h.sweep.congr (f := (·.byteAt pos 0x20)) fun _ _ => rfl
  rw [step_eq, step_eq, hbyte]
  exact (h.count span pos).endByte compact _ pos

theorem foldl (h : Twin base base' s s') (compact : Bool) (span : Span) (positions : List Nat) :
    Twin base base' (positions.foldl (FoldScan.step compact span) s) (positions.foldl (FoldScan.step compact span) s') := by
  induction positions generalizing s s' with
  | nil => exact h
  | cons pos positions ih => exact ih (h.step compact span pos)

end Twin

end FoldScan

/--
What a pass writes depends on no level that it writes over, apart from the depth of the line that it starts from.
-/
theorem overlaid_fold (keywords : Keywords) (span : Span) (h : base.Relevelled base')
    (hnumber : (base'.level (base.lineOf (base.wholeLines span).start - 1)).number
      = (base.level (base.lineOf (base.wholeLines span).start - 1)).number) :
    Document.Overlaid base base' (fold keywords span base) (fold keywords span base') := by
  have hspan : base'.wholeLines span = base.wholeLines span := by
    obtain ⟨levels, _, rfl⟩ := h
    rfl
  have habove : ∀ span, withLineAbove base' span = withLineAbove base span := by
    obtain ⟨levels, _, rfl⟩ := h
    exact fun _ => rfl
  unfold fold
  dsimp only
  rw [hspan, h.sameSource.lineOf, h.sameSource.options, habove, hnumber]
  refine (FoldScan.Twin.foldl ?_ _ _ _).sweep.overlaid
  exact ⟨⟨.of_relevelled h, rfl⟩, rfl⟩

section FirstLine

variable {doc doc' : Document} {compact : Bool} {span : Span} {s s' : FoldScan} {limit pos stop : Nat}

/--
Scans from the start of two documents that differ in their levels. They have changed the depth of the first line by the
same, as far as its level shows it.
-/
structure FoldScan.Parallel (doc doc' : Document) (limit pos : Nat) (s s' : FoldScan) : Prop where
  stands : Stands doc pos s
  stands' : Stands doc' pos s'
  near : Near limit s s'
  own : s.sweep.line = 0 → s'.sweep.own - (doc'.level 0).number.toInt = s.sweep.own - (doc.level 0).number.toInt
  number : ((s'.sweep.doc.level 0).number.toInt - (doc'.level 0).number.toInt
    - ((s.sweep.doc.level 0).number.toInt - (doc.level 0).number.toInt)) % 0x1000 = 0

namespace FoldScan.Parallel

theorem atLine (hdoc : doc.WellFormed) (hrelevelled : doc.Relevelled doc') (limit : Nat) :
    Parallel doc doc' limit 0 (atLine doc 0 false) (atLine doc' 0 false) where
  stands := .atLine hdoc
  stands' := .atLine (hrelevelled.sameSource.wellFormed hdoc)
  near :=
    { text := hrelevelled.sameSource.text
      styles := fun i _ => congrArg (·[i]?.getD 0) hrelevelled.styles
      line := show 0 = 0 from rfl
      visible := show 0 = 0 from rfl
      depth := Int.add_comm _ _
      wordStart := rfl
      behindLineEnd := rfl
      secondBehindLineEnd := .inl rfl
      inComment := rfl }
  own := by
    intro _
    rw [FoldScan.atLine, FoldScan.atLine, Sweep.ofDepth, Sweep.ofDepth, Int.sub_self, Int.sub_self]
  number := by
    rw [FoldScan.atLine, FoldScan.atLine, Sweep.ofDepth, Sweep.ofDepth, Int.sub_self, Int.sub_self]
    rfl

/--
The depth of the first line behind a line end.
-/
theorem number_step_of_endsLine (h : Stands doc pos s) (hdoc : doc.WellFormed) (hends : endsLine doc.text pos = true) :
    ((s.step compact span pos).sweep.doc.level 0).number.toInt
      = if s.sweep.line = 0 then s.sweep.own % 0x1000 else (s.sweep.doc.level 0).number.toInt := by
  have hsame := h.relevelled.sameSource
  have hwell := hsame.wellFormed hdoc
  have hcount : 0 < s.sweep.doc.lineCount := by
    have hlt := hdoc.lineOf_lt 0
    rw [hsame.lineCount]
    omega
  rw [step_of_endsLine (by rw [hsame.text]; exact hends)]
  obtain ⟨wordStart, inComment, visible, hplace⟩ := place_spec span s pos
  rw [hplace]
  show ((s.sweep.doc.setLevel s.sweep.line _).level 0).number.toInt = _
  split
  . next hline =>
    rw [hline, Document.level_setLevel hwell hcount]
    exact @Sweep.number_plainLevel_eq_emod { s.sweep with visible } _
  . next hline =>
    rw [Document.level, Document.getElem?_setLevel, if_neg hline]
    rfl

theorem step (h : Parallel doc doc' limit pos s s') (hdoc : doc.WellFormed) (hrelevelled : doc.Relevelled doc') (hpos : pos < limit)
    (hspan : span.start = 0) : Parallel doc doc' limit (pos + 1) (s.step compact span pos) (s'.step compact span pos) := by
  have hdoc' := hrelevelled.sameSource.wellFormed hdoc
  have htext := h.stands.relevelled.sameSource.text
  have hbefore := h.stands.styleBefore_eq_or h.near startsLine_zero (Nat.zero_le pos) hpos hspan hspan
  have hline := h.near.line
  have hown := h.own
  have hnumber := h.number
  refine
    { stands := h.stands.step hdoc
      stands' := h.stands'.step hdoc'
      near := h.near.step hpos (.inl rfl) hbefore
      own := ?own
      number := ?number }
  case own =>
    cases hends : endsLine doc.text pos with
    | true =>
      rw [step_of_endsLine (by rw [htext]; exact hends)]
      intro hfirst
      exact absurd hfirst (Nat.succ_ne_zero _)
    | false =>
      have hinner : endsLine s.sweep.doc.text pos = false := by rw [htext]; exact hends
      have hinner' : endsLine s'.sweep.doc.text pos = false := by rwa [h.near.text]
      obtain ⟨wordStart, inComment, visible, hplace⟩ := place_spec span s pos
      have hturn : (s'.place span pos).turnAt span.stop pos = (s.place span pos).turnAt span.stop pos :=
        (h.near.place hbefore).turnAt_eq hpos (.inl rfl) (by
          rw [hplace, hinner]
          nofun)
      rw [line_step_of_inner hinner, own_step_of_inner hinner, own_step_of_inner hinner', h.stands.onLineAbove, h.stands'.onLineAbove,
        hturn]
      intro hfirst
      have hfirst := hown hfirst
      simp only [Bool.false_eq_true, ↓reduceIte]
      omega
  case number =>
    cases hends : endsLine doc.text pos with
    | true =>
      rw [number_step_of_endsLine h.stands hdoc hends,
        number_step_of_endsLine h.stands' hdoc' (by rw [hrelevelled.sameSource.text]; exact hends), hline]
      split
      . next hfirst =>
        have hfirst := hown hfirst
        omega
      . exact hnumber
    | false =>
      have hinner : endsLine s.sweep.doc.text pos = false := by rw [htext]; exact hends
      have hinner' : endsLine s'.sweep.doc.text pos = false := by rwa [h.near.text]
      rw [doc_step_of_inner hinner, doc_step_of_inner hinner']
      exact hnumber

end FoldScan.Parallel

/--
Whatever the depth of the first line is, a pass changes it by the same.
-/
theorem number_fold_sub (hdoc : doc.WellFormed) (hrelevelled : doc.Relevelled doc') (hspan : doc.wholeLines span = doc.spanOf 0 stop)
    (keywords : Keywords) :
    (((fold keywords span doc').level 0).number.toInt - (doc'.level 0).number.toInt
      - (((fold keywords span doc).level 0).number.toInt - (doc.level 0).number.toInt)) % 0x1000 = 0 := by
  have hspan' : doc'.wholeLines span = doc'.spanOf 0 stop := by
    obtain ⟨levels, _, rfl⟩ := hrelevelled
    exact hspan
  have hsame : doc'.spanOf 0 stop = doc.spanOf 0 stop := rfl
  rw [fold_eq_scan hdoc hspan, fold_eq_scan (hrelevelled.sameSource.wellFormed hdoc) hspan', hrelevelled.sameSource.options, hsame]
  exact (FoldScan.scan_lockstep (R := FoldScan.Parallel doc doc' stop) (Nat.zero_le stop)
    (fun _ _ _ _ hlt h => h.step hdoc hrelevelled hlt rfl) (.atLine hdoc hrelevelled stop)).number

end FirstLine

end Highlight.Gibiane
