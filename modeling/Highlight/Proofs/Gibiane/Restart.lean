import Highlight.Proofs.Gibiane.Fold

/-!
Going on with folding Gibiane at a line start. The line above is counted once more, from the depth that its level
keeps. With each word of the line, the depth behind it stays as far above the depth of the line as it was the first
time, so behind the line both are the same again.
-/

namespace Highlight.Gibiane

open LineIndex

namespace FoldScan

variable {doc : Document} {compact : Bool} {span span' : Span} {s s' : FoldScan} {start mid stop pos : Nat}

/--
The bytes from `start` up to `stop` folded.
-/
def scan (compact : Bool) (span : Span) (s : FoldScan) (start stop : Nat) : FoldScan :=
  (List.range' start (stop - start)).foldl (step compact span) s

theorem scan_self (s : FoldScan) (pos : Nat) : scan compact span s pos pos = s :=
  stepsTo_self s pos

theorem scan_succ (h : start ≤ pos) : scan compact span s start (pos + 1) = (scan compact span s start pos).step compact span pos :=
  stepsTo_succ s h

theorem scan_trans (h : start ≤ mid) (h' : mid ≤ stop) :
    scan compact span (scan compact span s start mid) mid stop = scan compact span s start stop :=
  stepsTo_trans s h h'

/--
What the steps of two scans keep, the scans keep.
-/
theorem scan_lockstep {R : Nat → FoldScan → FoldScan → Prop} (hle : start ≤ stop)
    (hstep : ∀ pos s s', start ≤ pos → pos < stop → R pos s s' → R (pos + 1) (s.step compact span pos) (s'.step compact span' pos))
    (h : R start s s') : R stop (scan compact span s start stop) (scan compact span' s' start stop) :=
  stepsTo_lockstep hle hstep h

theorem scan_congr (hlt : start < stop) (h : s'.step compact span start = s.step compact span start) :
    scan compact span s' start stop = scan compact span s start stop := by
  have hle : start ≤ start + 1 := Nat.le_succ start
  rw [← scan_trans hle hlt, ← scan_trans hle hlt, scan_succ (Nat.le_refl start), scan_succ (Nat.le_refl start), scan_self, scan_self, h]

theorem relevelled_step (s : FoldScan) (pos : Nat) : s.sweep.doc.Relevelled (s.step compact span pos).sweep.doc := by
  obtain ⟨wordStart, inComment, visible, hplace⟩ := place_spec span s pos
  cases hends : endsLine s.sweep.doc.text pos with
  | true =>
    rw [step_of_endsLine hends, hplace]
    exact .setLevel _ _ _
  | false =>
    rw [doc_step_of_inner hends]
    exact .refl _

theorem relevelled_scan (hle : start ≤ stop) : s.sweep.doc.Relevelled (scan compact span s start stop).sweep.doc :=
  @scan_lockstep compact span span s s start stop (fun _ t _ => s.sweep.doc.Relevelled t.sweep.doc) hle
    (fun pos t _ _ _ h => h.trans (relevelled_step t pos)) (.refl _)

/--
The scan that a pass starts with on `line`, which is the first line of its span or the one above it.
-/
def atLine (doc : Document) (line : Nat) (onLineAbove : Bool) : FoldScan :=
  { sweep := Sweep.ofDepth doc line (doc.level line).number.toInt
    wordStart := 0
    behindLineEnd := true
    secondBehindLineEnd := true
    inComment := false
    onLineAbove }

/--
A scan in front of a line: no word of it has been counted, and it is known where its first word starts.
-/
structure InFront (pos : Nat) (s : FoldScan) : Prop where
  wordStart : s.wordStart = pos
  behindLineEnd : s.behindLineEnd = true
  inComment : s.inComment = false
  visible : s.sweep.visible = 0
  own : s.sweep.own = s.sweep.next

/--
A scan of a pass from the start of a text that stands at `pos`.
-/
structure Stands (doc : Document) (pos : Nat) (s : FoldScan) : Prop where
  relevelled : doc.Relevelled s.sweep.doc
  line : s.sweep.line = doc.lineOf pos
  onLineAbove : s.onLineAbove = false
  inFront : startsLine doc.text pos = true → s.InFront pos

namespace Stands

theorem atLine (hdoc : doc.WellFormed) : Stands doc 0 (atLine doc 0 false) where
  relevelled := .refl doc
  line := by
    rw [hdoc.lineOf_zero]
    rfl
  onLineAbove := rfl
  inFront := fun _ => ⟨rfl, rfl, rfl, rfl, rfl⟩

theorem step (h : Stands doc pos s) (hdoc : doc.WellFormed) : Stands doc (pos + 1) (s.step compact span pos) := by
  have htext : s.sweep.doc.text = doc.text := h.relevelled.sameSource.text
  have hline := h.line
  rw [hdoc.lineOf_eq] at hline
  obtain ⟨wordStart, inComment, visible, hplace⟩ := place_spec span s pos
  cases hends : endsLine doc.text pos with
  | true =>
    rw [step_of_endsLine (by rw [htext]; exact hends), hplace]
    exact
      { relevelled := h.relevelled.trans (.setLevel _ _ _)
        line := by
          rw [hdoc.lineOf_eq, breaksBefore_succ, startsLine_succ, hends, if_pos rfl, ← hline]
          rfl
        onLineAbove := rfl
        inFront := fun _ => ⟨rfl, rfl, rfl, rfl, rfl⟩ }
  | false =>
    have hinner : endsLine s.sweep.doc.text pos = false := by rw [htext]; exact hends
    exact
      { relevelled := by
          rw [doc_step_of_inner hinner]
          exact h.relevelled
        line := by
          rw [line_step_of_inner hinner, hdoc.lineOf_eq, breaksBefore_succ, startsLine_succ, hends, hline]
          rfl
        onLineAbove := (onLineAbove_step_of_inner hinner).trans h.onLineAbove
        inFront := by
          rw [startsLine_succ, hends]
          nofun }

theorem scan (h : Stands doc start s) (hdoc : doc.WellFormed) (hle : start ≤ stop) :
    Stands doc stop (scan compact span s start stop) :=
  @scan_lockstep compact span span s s start stop (fun pos s _ => Stands doc pos s) hle (fun _ _ _ _ _ h => h.step hdoc) h

/--
A pass that starts with an earlier line has the same style in front of each byte, but for the first one.
-/
theorem styleBefore_eq_or {limit first : Nat} (h : Stands doc pos s) (hnear : Near limit s s')
    (hfirst : startsLine doc.text first = true) (hle : first ≤ pos) (hlt : pos < limit) (hspan : span.start = 0)
    (hspan' : span'.start = first) :
    span'.styleBefore s'.sweep.doc pos = span.styleBefore s.sweep.doc pos ∨ s.wordStart = pos := by
  by_cases heq : pos = first
  . right
    subst heq
    exact (h.inFront hfirst).wordStart
  . left
    have hne : ¬ (pos == first) = true := fun hbeq => heq (beq_iff_eq.mp hbeq)
    have hne' : ¬ (pos == 0) = true := fun hbeq => by
      have := beq_iff_eq.mp hbeq
      omega
    rw [Span.styleBefore, Span.styleBefore, hspan, hspan', if_neg hne, if_neg hne']
    exact hnear.styles (pos - 1) (by omega)

/--
Two passes that start a line with the same depth store the same levels from there on.
-/
theorem sameLevels_scan (compact : Bool) {limit first : Nat} (h : Stands doc start s) (hdoc : doc.WellFormed) (hnear : Near limit s s')
    (hlevels : SameLevels s s') (hfirst : startsLine doc.text first = true) (hge : first ≤ start) (hle : start ≤ limit)
    (hspan : span.start = 0) (hspan' : span'.start = first) (hstop : Near.StopsAlike doc.text limit span.stop span'.stop) :
    SameLevels (FoldScan.scan compact span s start limit) (FoldScan.scan compact span' s' start limit) := by
  refine (scan_lockstep (R := fun pos s s' => Stands doc pos s ∧ Near limit s s' ∧ SameLevels s s') hle ?_
    ⟨h, hnear, hlevels⟩).2.2
  rintro pos s s' hpos hlt ⟨h, hnear, hlevels⟩
  have hbefore := h.styleBefore_eq_or hnear hfirst (Nat.le_trans hge hpos) hlt hspan hspan'
  have hstop' : Near.StopsAlike s.sweep.doc.text limit span.stop span'.stop := by
    rw [h.relevelled.sameSource.text]
    exact hstop
  exact ⟨h.step hdoc, hnear.step hlt hstop' hbefore, hnear.sameLevels_step hlevels hlt hstop' hbefore⟩

end Stands

end FoldScan

open FoldScan

variable {doc : Document} {pos stop : Nat}

/--
The scan of a pass over all of the text in front of `pos`.
-/
def scanAt (doc : Document) (pos : Nat) : FoldScan :=
  scan (doc.options.getFlag "fold.compact" true) (doc.spanOf 0 doc.size) (atLine doc 0 false) 0 pos

/--
The depths that a pass over all of the text stores for its lines fit into the depths of levels.
-/
def LevelsFit (doc : Document) : Prop :=
  ∀ pos, pos < doc.size → endsLine doc.text pos = true →
    0 ≤ (scanAt doc pos).sweep.own ∧ (scanAt doc pos).sweep.own ≤ 0x0FFF

instance (doc : Document) : Decidable (LevelsFit doc) :=
  inferInstanceAs (Decidable (∀ pos, pos < doc.size → _ → _))

/--
Whether a pass from the line start `pos` on finds the first word of the line above. The style that it takes for the
one in front of that line is the style in front of `pos`, and without a look at the text it takes the word to start
with the text.
-/
def FindsFirstWord (doc : Document) (pos : Nat) : Prop :=
  let first := lineFloor doc.text (pos - 1)
  let c : Code := (doc.byteAt first 0x20).toNat
  doc.styleBefore pos = Style.default ∨ first = 0 ∨ isBetween c = true ∨ c.is '*' = true

instance (doc : Document) (pos : Nat) : Decidable (FindsFirstWord doc pos) :=
  inferInstanceAs (Decidable (_ ∨ _))

section Fold

variable {span : Span} (hdoc : doc.WellFormed)
include hdoc

theorem fold_eq_scan (hspan : doc.wholeLines span = doc.spanOf 0 stop) (keywords : Keywords) :
    fold keywords span doc
      = (scan (doc.options.getFlag "fold.compact" true) (doc.spanOf 0 stop) (atLine doc 0 false) 0 stop).sweep.doc := by
  have hline : doc.lineOf (doc.spanOf 0 stop).start = 0 := hdoc.lineOf_zero
  unfold fold withLineAbove
  dsimp only
  rw [hspan, hline]
  rfl

omit hdoc in
theorem relevelled_fold (keywords : Keywords) (span : Span) (doc : Document) : doc.Relevelled (fold keywords span doc) := by
  unfold fold
  dsimp only
  generalize List.range' _ _ = positions
  have hfoldl : ∀ s : FoldScan, doc.Relevelled s.sweep.doc → ∀ compact span,
      doc.Relevelled (positions.foldl (FoldScan.step compact span) s).sweep.doc := by
    intro s hs compact span
    induction positions generalizing s with
    | nil => exact hs
    | cons pos positions ih => exact ih _ (hs.trans (relevelled_step s pos))
  exact hfoldl _ (.refl doc) _ _

/--
A pass from a line start on begins with the line above.
-/
theorem fold_eq_scan_above (hpos : startsLine doc.text pos = true) (hpositive : 0 < pos) (hlt : pos < stop)
    (hspan : doc.wholeLines span = doc.spanOf pos stop) (keywords : Keywords) :
    fold keywords span doc
      = (scan (doc.options.getFlag "fold.compact" true)
          ⟨lineFloor doc.text (pos - 1), stop - lineFloor doc.text (pos - 1), doc.styleBefore pos⟩
          (atLine doc (doc.lineOf (pos - 1)) true) (lineFloor doc.text (pos - 1)) stop).sweep.doc := by
  have hline : doc.lineOf (doc.spanOf pos stop).start = doc.lineOf (pos - 1) + 1 := by
    show doc.lineOf pos = _
    obtain ⟨before, rfl⟩ : ∃ before, pos = before + 1 := ⟨pos - 1, by omega⟩
    rw [hdoc.lineOf_eq, hdoc.lineOf_eq, breaksBefore_succ, hpos]
    rfl
  have hstop : (doc.spanOf pos stop).stop = stop := by
    show pos + (stop - pos) = stop
    omega
  unfold fold withLineAbove
  dsimp only
  rw [hspan, hline, if_pos (Nat.succ_pos _), hstop, Nat.add_sub_cancel, hdoc.lineStart_lineOf]
  rfl

end Fold

/--
The first byte of the line above is counted as if its first word started there.
-/
theorem step_atLine {compact : Bool} {span : Span} {line : Nat}
    (hfinds : span.style = Style.default ∨ span.start = 0 ∨ isBetween (doc.byteAt span.start 0x20).toNat = true
      ∨ Code.is (doc.byteAt span.start 0x20).toNat '*' = true) :
    (atLine doc line true).step compact span span.start
      = { atLine doc line true with wordStart := span.start }.step compact span span.start := by
  have hbefore : span.styleBefore doc span.start = span.style := if_pos (beq_self_eq_true span.start)
  have hplace : (atLine doc line true).place span span.start
      = { atLine doc line true with wordStart := span.start }.place span span.start := by
    unfold place
    dsimp only
    rw [placeWord_eq, placeWord_eq]
    unfold atLine Sweep.ofDepth
    dsimp only
    rw [hbefore]
    rcases hfinds with hdefault | hzero | hbetween | hstar
    . rw [hdefault]
      rfl
    . rw [hzero]
    . rw [hbetween]
      rfl
    . unfold placeComment
      rw [hstar]
      rfl
  rw [step_eq, step_eq, hplace]

theorem scanAt_succ (doc : Document) (pos : Nat) :
    scanAt doc (pos + 1) = (scanAt doc pos).step (doc.options.getFlag "fold.compact" true) (doc.spanOf 0 doc.size) pos :=
  scan_succ (Nat.zero_le pos)

section Whole

variable (hdoc : doc.WellFormed)
include hdoc

theorem stands_scanAt (pos : Nat) : Stands doc pos (scanAt doc pos) :=
  (Stands.atLine hdoc).scan hdoc (Nat.zero_le pos)

/--
The level of a line keeps the depth that the line has at its end.
-/
theorem number_scanAt (hfits : LevelsFit doc) (hends : endsLine doc.text pos = true) :
    ((scanAt doc (pos + 1)).sweep.doc.level (doc.lineOf pos)).number.toInt = (scanAt doc pos).sweep.own := by
  have hstands := stands_scanAt hdoc pos
  have hwell := hstands.relevelled.sameSource.wellFormed hdoc
  have hown := hfits pos (lt_size_of_endsLine hends) hends
  have hline : doc.lineOf pos < (scanAt doc pos).sweep.doc.lineCount := by
    rw [hstands.relevelled.sameSource.lineCount]
    exact hdoc.lineOf_lt pos
  rw [scanAt_succ]
  generalize scanAt doc pos = s at *
  obtain ⟨wordStart, inComment, visible, hplace⟩ := place_spec (doc.spanOf 0 doc.size) s pos
  rw [step_of_endsLine (by rw [hstands.relevelled.sameSource.text]; exact hends), hplace]
  show ((s.sweep.doc.setLevel s.sweep.line (({ s.sweep with visible } : Sweep).plainLevel _)).level (doc.lineOf pos)).number.toInt = _
  rw [hstands.line, Document.level_setLevel hwell hline]
  exact @Sweep.number_plainLevel { s.sweep with visible } hown.1 hown.2 _

section Above

variable {first : Nat} (hstart : startsLine doc.text first = true) (hle : first ≤ pos)
  (hinner : ∀ q, first < q → q ≤ pos → startsLine doc.text q = false)
include hstart hle hinner

/--
Within the line above, the second scan counts what the first one has counted, from the depth that the line is stored
with.
-/
theorem near_lineAbove (style : Style) {doc' : Document} (hrelevelled : doc.Relevelled doc') (hpos : pos < doc.size) :
    let compact := doc.options.getFlag "fold.compact" true
    let s' := scan compact ⟨first, doc.size - first, style⟩ { atLine doc' (doc.lineOf pos) true with wordStart := first } first pos
    Near doc.size (scanAt doc pos) s' ∧ s'.onLineAbove = true
      ∧ s'.sweep.own = (doc'.level (doc.lineOf pos)).number.toInt ∧ s'.sweep.doc = doc' := by
  intro compact
  have hstands := stands_scanAt hdoc first
  have hfront := hstands.inFront hstart
  have hline : doc.lineOf first = doc.lineOf pos := by
    rw [hdoc.lineOf_eq, hdoc.lineOf_eq, breaksBefore_eq_of_no_start hle hinner]
  have hnear : Near doc.size (scanAt doc first) { atLine doc' (doc.lineOf pos) true with wordStart := first } :=
    { text := hrelevelled.sameSource.text.trans hstands.relevelled.sameSource.text.symm
      styles := by
        intro i _
        rw [Document.styleAt, Document.styleAt, hstands.relevelled.styles]
        exact congrArg (·[i]?.getD 0) hrelevelled.styles
      line := by
        rw [hstands.line, hline]
        rfl
      visible := hfront.visible.symm
      depth := by
        rw [hfront.own]
        exact Int.add_comm _ _
      wordStart := hfront.wordStart.symm
      behindLineEnd := hfront.behindLineEnd.symm
      secondBehindLineEnd := .inr hfront.behindLineEnd
      inComment := hfront.inComment.symm }
  have hsplit : scanAt doc pos = scan compact (doc.spanOf 0 doc.size) (scanAt doc first) first pos :=
    (scan_trans (Nat.zero_le first) hle).symm
  have hstop : Span.stop ⟨first, doc.size - first, style⟩ = (doc.spanOf 0 doc.size).stop := by
    show first + (doc.size - first) = 0 + (doc.size - 0)
    omega
  rw [hsplit]
  refine (scan_lockstep (R := fun q s s' => Stands doc q s ∧ Near doc.size s s' ∧ s'.onLineAbove = true
    ∧ s'.sweep.own = (doc'.level (doc.lineOf pos)).number.toInt ∧ s'.sweep.doc = doc') hle ?_
    ⟨hstands, hnear, rfl, rfl, rfl⟩).2
  rintro q s s' hq hlt ⟨hs, hnear, habove, hown, hdoc'⟩
  have hends : endsLine s'.sweep.doc.text q = false := by
    rw [hdoc', hrelevelled.sameSource.text, ← startsLine_succ]
    exact hinner (q + 1) (by omega) hlt
  refine ⟨hs.step hdoc, hnear.step (by omega) (.inl hstop) ?_, ?_, ?_, ?_⟩
  . exact hs.styleBefore_eq_or hnear hstart hq (by omega) rfl rfl
  . rw [onLineAbove_step_of_inner hends, habove]
  . rw [own_step_of_inner hends, habove, if_pos rfl, hown]
  . rw [doc_step_of_inner hends, hdoc']

end Above

/--
At the end of the line above, the level that it has is stored once more.
-/
theorem sameLevels_lineEnd {s' : FoldScan} {span' : Span} (hends : endsLine doc.text pos = true) (hfits : LevelsFit doc)
    (hnear : Near doc.size (scanAt doc pos) s')
    (hown : s'.sweep.own = ((scanAt doc (pos + 1)).sweep.doc.level (doc.lineOf pos)).number.toInt)
    (hdoc' : s'.sweep.doc = (scanAt doc (pos + 1)).sweep.doc)
    (hbefore : span'.styleBefore s'.sweep.doc pos = (doc.spanOf 0 doc.size).styleBefore (scanAt doc pos).sweep.doc pos
      ∨ (scanAt doc pos).wordStart = pos) :
    SameLevels (scanAt doc (pos + 1)) (s'.step (doc.options.getFlag "fold.compact" true) span' pos) := by
  rw [number_scanAt hdoc hfits hends] at hown
  have htext := (stands_scanAt hdoc pos).relevelled.sameSource.text
  have hends₁ : endsLine (scanAt doc pos).sweep.doc.text pos = true := by rwa [htext]
  have hends' : endsLine s'.sweep.doc.text pos = true := by rwa [hnear.text]
  have hvisible := (hnear.place hbefore).visible
  have hdepth := hnear.depth
  have hline := hnear.line
  rw [scanAt_succ, step_of_endsLine hends₁] at hdoc' ⊢
  rw [step_of_endsLine hends']
  generalize scanAt doc pos = s at *
  obtain ⟨wordStart, inComment, visible, hplace⟩ := place_spec (doc.spanOf 0 doc.size) s pos
  obtain ⟨wordStart', inComment', visible', hplace'⟩ := place_spec span' s' pos
  rw [hplace, hplace'] at hvisible
  rw [hplace] at hdoc'
  rw [hplace, hplace']
  have hnext : s'.sweep.next = s.sweep.next := by omega
  have hstored : ({ s'.sweep with visible := visible' } : Sweep).plainLevel (doc.options.getFlag "fold.compact" true)
      = ({ s.sweep with visible } : Sweep).plainLevel (doc.options.getFlag "fold.compact" true) := by
    apply Sweep.plainLevel_congr
    . exact hown
    . exact hnext
    . exact hvisible
  exact
    { own := hnext
      onLineAbove := rfl
      levels := by
        show s'.sweep.doc.levels.setIfInBounds s'.sweep.line _ = s.sweep.doc.levels.setIfInBounds s.sweep.line _
        rw [hstored, hdoc', hline]
        exact Array.setIfInBounds_setIfInBounds _ }

/--
Behind the line above, both scans are the same again.
-/
theorem near_restart (hpos : startsLine doc.text pos = true) (hpositive : 0 < pos) (hlt : pos < doc.size) (hfits : LevelsFit doc)
    (hfinds : FindsFirstWord doc pos) :
    let compact := doc.options.getFlag "fold.compact" true
    let first := lineFloor doc.text (pos - 1)
    let s' := scan compact ⟨first, doc.size - first, doc.styleBefore pos⟩
      (atLine (scanAt doc pos).sweep.doc (doc.lineOf (pos - 1)) true) first pos
    Near doc.size (scanAt doc pos) s' ∧ SameLevels (scanAt doc pos) s' := by
  obtain ⟨last, rfl⟩ : ∃ last, pos = last + 1 := ⟨pos - 1, by omega⟩
  rw [startsLine_succ] at hpos
  rw [Nat.add_sub_cancel]
  intro compact first s'
  have hstands := stands_scanAt hdoc (last + 1)
  obtain ⟨hle, hstart, hinner⟩ := lineFloor_spec doc.text last
  have hspan : Span.stop ⟨first, doc.size - first, doc.styleBefore (last + 1)⟩ = (doc.spanOf 0 doc.size).stop := by
    show lineFloor doc.text last + (doc.size - lineFloor doc.text last) = 0 + (doc.size - 0)
    omega
  obtain ⟨t, hsplit, hnear, _, hown, hdoc'⟩ : ∃ t : FoldScan,
      s' = t.step compact ⟨first, doc.size - first, doc.styleBefore (last + 1)⟩ last ∧ Near doc.size (scanAt doc last) t
        ∧ t.onLineAbove = true ∧ t.sweep.own = ((scanAt doc (last + 1)).sweep.doc.level (doc.lineOf last)).number.toInt
        ∧ t.sweep.doc = (scanAt doc (last + 1)).sweep.doc := by
    refine ⟨_, ?_, near_lineAbove hdoc hstart hle hinner (doc.styleBefore (last + 1)) hstands.relevelled (by omega)⟩
    rw [← scan_succ hle]
    refine (scan_congr (Nat.lt_succ_of_le hle) ?_).symm
    refine (step_atLine ?_).symm
    rw [Document.byteAt, hstands.relevelled.sameSource.text]
    exact hfinds
  have hbefore : Span.styleBefore ⟨first, doc.size - first, doc.styleBefore (last + 1)⟩ t.sweep.doc last
      = (doc.spanOf 0 doc.size).styleBefore (scanAt doc last).sweep.doc last ∨ (scanAt doc last).wordStart = last :=
    (stands_scanAt hdoc last).styleBefore_eq_or hnear hstart hle (by omega) rfl rfl
  rw [hsplit]
  refine ⟨?_, ?_⟩
  . rw [scanAt_succ]
    exact hnear.step (by omega) (.inl hspan) hbefore
  . exact sameLevels_lineEnd hdoc hpos hfits hnear hown hdoc' hbefore

/--
From the line above on, a pass stores what a pass over all of the text does.
-/
theorem doc_restart (hpos : startsLine doc.text pos = true) (hpositive : 0 < pos) (hlt : pos < doc.size) (hfits : LevelsFit doc)
    (hfinds : FindsFirstWord doc pos) :
    let first := lineFloor doc.text (pos - 1)
    (scan (doc.options.getFlag "fold.compact" true) ⟨first, doc.size - first, doc.styleBefore pos⟩
      (atLine (scanAt doc pos).sweep.doc (doc.lineOf (pos - 1)) true) first doc.size).sweep.doc
      = (scanAt doc doc.size).sweep.doc := by
  intro first
  have hfirst : first ≤ pos - 1 := lineFloor_le doc.text (pos - 1)
  have hle : first ≤ pos := by omega
  have hstands := stands_scanAt hdoc pos
  have hstop : Span.stop ⟨first, doc.size - first, doc.styleBefore pos⟩ = (doc.spanOf 0 doc.size).stop := by
    show first + (doc.size - first) = 0 + (doc.size - 0)
    omega
  obtain ⟨hnear, hlevels⟩ := near_restart hdoc hpos hpositive hlt hfits hfinds
  have hsame := hstands.sameLevels_scan (doc.options.getFlag "fold.compact" true) hdoc hnear hlevels
    (startsLine_lineFloor doc.text (pos - 1)) hle (Nat.le_of_lt hlt) rfl rfl (.inl hstop)
  rw [scan_trans hle (Nat.le_of_lt hlt)] at hsame
  have hsplit := @scan_trans (doc.options.getFlag "fold.compact" true) (doc.spanOf 0 doc.size) (atLine doc 0 false) 0 pos doc.size
    (Nat.zero_le pos) (Nat.le_of_lt hlt)
  refine (stands_scanAt hdoc doc.size).relevelled.eq_of_levels (hstands.relevelled.trans ?_) ?_
  . exact @relevelled_scan _ _ (atLine (scanAt doc pos).sweep.doc (doc.lineOf (pos - 1)) true) first doc.size (by omega)
  . rw [hsame.levels]
    exact congrArg (·.sweep.doc.levels) hsplit

/--
In front of a line start, a pass that ends there stores what a pass over all of the text does, even if the styles and
the line states behind it are others.
-/
theorem doc_restyle {styles : Array Style} {lineStates : Array LineState} (hpos : startsLine doc.text pos = true)
    (hagree : doc.AgreesBelow styles lineStates pos) :
    let front := doc.restyle styles lineStates
    ((scan (doc.options.getFlag "fold.compact" true) (front.spanOf 0 pos) (atLine front 0 false) 0 pos).sweep.doc).restyle
        doc.styles doc.lineStates
      = (scanAt doc pos).sweep.doc := by
  intro front
  have hle : pos ≤ doc.text.size := le_size_of_startsLine hpos
  have hnear : Near pos (atLine doc 0 false) (atLine front 0 false) :=
    { text := rfl
      styles := fun i hi => hagree.styleAt hi
      line := rfl
      visible := rfl
      depth := rfl
      wordStart := rfl
      behindLineEnd := rfl
      secondBehindLineEnd := .inl rfl
      inComment := rfl }
  have hstop : Near.StopsAlike doc.text pos (doc.spanOf 0 doc.size).stop (front.spanOf 0 pos).stop := by
    refine .inr ⟨hpos, ?_, ?_⟩
    . show pos ≤ 0 + (doc.text.size - 0)
      omega
    . show pos ≤ 0 + (pos - 0)
      omega
  have hsame := (Stands.atLine hdoc).sameLevels_scan (doc.options.getFlag "fold.compact" true) hdoc hnear ⟨rfl, rfl, rfl⟩
    startsLine_zero (Nat.le_refl 0) (Nat.zero_le pos) rfl rfl hstop
  have hrelevelled := @relevelled_scan (doc.options.getFlag "fold.compact" true) (front.spanOf 0 pos) (atLine front 0 false) 0 pos
    (Nat.zero_le pos)
  exact (stands_scanAt hdoc pos).relevelled.eq_of_levels (Document.Relevelled.of_restyle hrelevelled) hsame.levels

end Whole

end Highlight.Gibiane
