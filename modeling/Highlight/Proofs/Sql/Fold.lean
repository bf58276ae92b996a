import Highlight.Proofs.Fold.Front
import Highlight.Sql

/-!
Folding SQL as a pass that goes from line to line.
-/

namespace Highlight.Sql

open LineIndex

section Words

variable {doc : Document} {pos : Nat}

theorem lowerAt_of_endsLine (h : endsLine doc.text pos = true) :
    lowerAt doc pos = Code.lineFeed ∨ lowerAt doc pos = Code.carriageReturn := by
  unfold endsLine at h
  rw [lowerAt, codeAt, Document.byteAt]
  split at h
  . next hb =>
    rw [hb]
    exact .inl rfl
  . next hb =>
    rw [hb]
    exact .inr rfl
  . cases h

/--
No letter ends a line.
-/
theorem endsLine_of_lowerAt {c : Code} (h : (lowerAt doc pos == c) = true) (hc : c.isLower = true) :
    endsLine doc.text pos = false := by
  rw [Bool.eq_false_iff]
  intro hends
  rw [beq_iff_eq] at h
  rcases lowerAt_of_endsLine hends with hline | hline
  . rw [← h, hline] at hc
    cases hc
  . rw [← h, hline] at hc
    cases hc

theorem lowerAt_of_go {pattern : List Code} (hplain : ∀ c ∈ pattern, Code.is c '~' = false)
    (h : abbreviatedAt.go doc pos pattern false = true) {i : Nat} {c : Code} (hc : pattern[i]? = some c) :
    (lowerAt doc (pos + i) == c) = true := by
  induction pattern generalizing pos i with
  | nil => cases hc
  | cons p rest ih =>
    rw [abbreviatedAt.go.eq_def] at h
    dsimp only at h
    rw [if_neg (by rw [hplain p List.mem_cons_self]; decide), Bool.false_and, Bool.false_or, Bool.and_eq_true] at h
    cases i with
    | zero =>
      cases hc
      exact h.1
    | succ i =>
      rw [show pos + (i + 1) = pos + 1 + i by omega]
      exact ih (fun c hc => hplain c (List.mem_cons_of_mem p hc)) h.2 hc

/--
No line ends in an `elsif`.
-/
theorem endsLine_of_elsif (h : abbreviatedAt doc pos "elsif" = true) {i : Nat} (hi : i < 5) :
    endsLine doc.text (pos + i) = false := by
  have hbytes : (Utf8.encode "elsif").map UInt8.toNat = [0x65, 0x6C, 0x73, 0x69, 0x66] := by decide
  have hgo : abbreviatedAt.go doc pos [0x65, 0x6C, 0x73, 0x69, 0x66] false = true := by
    unfold abbreviatedAt at h
    rw [hbytes] at h
    exact h
  have hlower : ∀ c ∈ [0x65, 0x6C, 0x73, 0x69, 0x66], Code.isLower c = true := by decide
  exact endsLine_of_lowerAt (lowerAt_of_go (by decide) hgo (List.getElem?_eq_getElem hi)) (hlower _ (List.getElem_mem hi))

variable {doc' : Document}

theorem codeAt_congr (htext : doc'.text = doc.text) (pos : Nat) : codeAt doc' pos = codeAt doc pos := by
  rw [codeAt, codeAt, Document.byteAt, Document.byteAt, htext]

section Ahead

variable {shift : Nat} {Sees : Nat → Prop} (hcode : ∀ pos, Sees pos → codeAt doc' (pos + shift) = codeAt doc pos)
include hcode

theorem lowerAt_congr (hpos : Sees pos) : lowerAt doc' (pos + shift) = lowerAt doc pos := by
  rw [lowerAt, lowerAt, hcode pos hpos]

theorem go_congr {pattern : List Code} (hsucc : ∀ c ∈ pattern, ∀ pos, Sees pos → (lowerAt doc pos == c) = true → Sees (pos + 1))
    (hpos : Sees pos) (short : Bool) :
    abbreviatedAt.go doc' (pos + shift) pattern short = abbreviatedAt.go doc pos pattern short := by
  fun_induction abbreviatedAt.go doc pos pattern short with
  | case1 pos short =>
    rw [abbreviatedAt.go.eq_def]
    dsimp only
    rw [hcode pos hpos]
  | case2 pos short p rest htilde ih =>
    rw [abbreviatedAt.go.eq_def]
    dsimp only
    rw [if_pos htilde, hcode pos hpos]
    cases rest with
    | nil => rfl
    | cons q rest =>
      dsimp only at ih ⊢
      have hsucc' := fun c hc => hsucc c (List.mem_cons_of_mem p (List.mem_cons_of_mem q hc))
      rw [lowerAt_congr hcode hpos, Nat.add_right_comm]
      cases hq : lowerAt doc pos == q with
      | false => rfl
      | true => rw [ih hsucc' (hsucc q (List.mem_cons_of_mem p List.mem_cons_self) pos hpos hq)]
  | case3 pos short p rest hplain ih =>
    rw [abbreviatedAt.go.eq_def]
    dsimp only
    rw [if_neg hplain, lowerAt_congr hcode hpos, hcode pos hpos, Nat.add_right_comm]
    cases hp : lowerAt doc pos == p with
    | false => rfl
    | true => rw [ih (fun c hc => hsucc c (List.mem_cons_of_mem p hc)) (hsucc p List.mem_cons_self pos hpos hp)]

/--
Whether a word stands at a position depends on what is seen there, which goes on behind each of its characters.
-/
theorem abbreviatedAt_congr {pattern : String}
    (hsucc : ∀ c ∈ (Utf8.encode pattern).map UInt8.toNat, ∀ pos, Sees pos → (lowerAt doc pos == c) = true → Sees (pos + 1))
    (hpos : Sees pos) : abbreviatedAt doc' (pos + shift) pattern = abbreviatedAt doc pos pattern := by
  unfold abbreviatedAt
  generalize (Utf8.encode pattern).map UInt8.toNat = codes at *
  cases codes with
  | nil => rfl
  | cons first rest =>
    dsimp only
    rw [lowerAt_congr hcode hpos, Nat.add_right_comm]
    cases hfirst : lowerAt doc pos == first with
    | false => rfl
    | true =>
      have hpos := hsucc first List.mem_cons_self pos hpos hfirst
      have hgo : ∀ more : List Code, more <:+ rest → ∀ short,
          abbreviatedAt.go doc' (pos + 1 + shift) more short = abbreviatedAt.go doc (pos + 1) more short := fun more hmore short =>
        go_congr hcode (fun c hc => hsucc c (List.mem_cons_of_mem first (hmore.subset hc))) hpos short
      cases rest with
      | nil => rw [hgo _ (List.suffix_refl _)]
      | cons p more =>
        dsimp only
        rw [hgo _ (List.suffix_refl _), hgo _ (List.suffix_cons p more)]

end Ahead

theorem abbreviatedAt_restyle {styles : Array Style} {lineStates : Array LineState} (pattern : String) :
    abbreviatedAt (doc.restyle styles lineStates) pos pattern = abbreviatedAt doc pos pattern := by
  have hcode : ∀ pos, True → codeAt (doc.restyle styles lineStates) (pos + 0) = codeAt doc pos := fun _ _ => rfl
  exact abbreviatedAt_congr hcode (fun _ _ _ _ _ => trivial) trivial

end Words

namespace FoldScan

/--
The same scan over a document with other styles and line states.
-/
def restyle (styles : Array Style) (lineStates : Array LineState) (s : FoldScan) : FoldScan :=
  { s with sweep := s.sweep.restyle styles lineStates }

def commented (options : FoldOptions) (s : FoldScan) : FoldScan :=
  if options.comments then s.countComment else s

/--
The scan with what stands at its position counted, and how many bytes more that takes.
-/
def count (options : FoldOptions) (s : FoldScan) : FoldScan × Nat :=
  if s.sweep.doc.styleAt s.pos == Style.word then (s.commented options).countWord else (s.commented options, 0)

/--
Counting changes the depth and what the line has of an `end`.
-/
def Recounts (s t : FoldScan) : Prop :=
  ∃ next endSeen, t = { s with sweep := { s.sweep with next }, endSeen }

section Count

variable {options : FoldOptions} {s t : FoldScan}

theorem recounts_commented (options : FoldOptions) (s : FoldScan) : s.Recounts (s.commented options) := by
  unfold commented
  split
  . exact ⟨_, _, rfl⟩
  . exact ⟨_, _, rfl⟩

theorem recounts_countWord (s : FoldScan) : s.Recounts s.countWord.1 := by
  unfold countWord
  dsimp only
  split
  . exact ⟨_, _, rfl⟩
  . split
    . split
      . exact ⟨_, _, rfl⟩
      . exact ⟨_, _, rfl⟩
    . split
      . exact ⟨_, _, rfl⟩
      . split
        . exact ⟨_, _, rfl⟩
        . exact ⟨_, _, rfl⟩

theorem width_countWord (s : FoldScan) :
    s.countWord.2 = 0 ∨ s.countWord.2 = 4 ∧ abbreviatedAt s.sweep.doc s.pos "elsif" = true := by
  unfold countWord
  dsimp only
  split
  . next h => exact .inr ⟨rfl, h⟩
  . refine .inl ?_
    split
    . split
      . rfl
      . rfl
    . split
      . rfl
      . split
        . rfl
        . rfl

theorem recounts_count (options : FoldOptions) (s : FoldScan) : s.Recounts (s.count options).1 := by
  unfold count
  split
  . obtain ⟨_, _, heq⟩ := recounts_commented options s
    obtain ⟨_, _, heq'⟩ := recounts_countWord (s.commented options)
    rw [heq', heq]
    exact ⟨_, _, rfl⟩
  . exact recounts_commented options s

theorem width_count (options : FoldOptions) (s : FoldScan) :
    (s.count options).2 = 0 ∨ (s.count options).2 = 4 ∧ abbreviatedAt s.sweep.doc s.pos "elsif" = true := by
  unfold count
  split
  . obtain ⟨_, _, heq⟩ := recounts_commented options s
    have hwidth := width_countWord (s.commented options)
    rw [show (s.commented options).sweep.doc = s.sweep.doc by rw [heq], show (s.commented options).pos = s.pos by rw [heq]]
      at hwidth
    exact hwidth
  . exact .inl rfl

theorem step_eq (options : FoldOptions) (s : FoldScan) :
    s.step options
      = { sweep := (if endsLine s.sweep.doc.text s.pos then
            (s.count options).1.sweep.closeLine (s.count options).1.sweep.own options.compact
          else
            (s.count options).1.sweep).see (s.sweep.doc.byteAt s.pos 0x20)
          pos := s.pos + (s.count options).2 + 1
          before := s.sweep.doc.styleAt s.pos
          endSeen := if endsLine s.sweep.doc.text s.pos then false else (s.count options).1.endSeen } := by
  obtain ⟨_, _, heq⟩ := recounts_count options s
  have hpos : (s.count options).1.pos = s.pos := by rw [heq]
  unfold step
  extract_lets doc b style commented counted s' closed
  have hcounted : counted = s.count options := rfl
  simp only [closed, s', hcounted, hpos, doc, b, style]
  split
  . rfl
  . rw [hpos]

theorem pos_step_of_endsLine (options : FoldOptions) (hends : endsLine s.sweep.doc.text s.pos = true) :
    (s.step options).pos = s.pos + 1 := by
  rcases width_count options s with hwidth | ⟨_, hword⟩
  . rw [step_eq, hwidth]
  . have := endsLine_of_elsif hword (show 0 < 5 by decide)
    rw [Nat.add_zero, hends] at this
    cases this

variable {styles : Array Style} {lineStates : Array LineState}

theorem countWord_restyle (s : FoldScan) :
    (s.restyle styles lineStates).countWord = (s.countWord.1.restyle styles lineStates, s.countWord.2) := by
  obtain ⟨sweep, pos, before, endSeen⟩ := s
  unfold countWord
  dsimp only [restyle, Sweep.restyle]
  simp only [abbreviatedAt_restyle]
  split
  . rfl
  . split
    . cases endSeen with
      | true => rfl
      | false => rfl
    . split
      . rfl
      . split
        . rfl
        . rfl

variable {pos : Nat} (hagree : s.sweep.doc.AgreesBelow styles lineStates pos)
  (hpos : startsLine s.sweep.doc.text pos = true) (hlt : s.pos < pos)
include hagree hpos hlt

theorem countComment_restyle : (s.restyle styles lineStates).countComment = s.countComment.restyle styles lineStates := by
  unfold countComment markerChange
  dsimp only [restyle, Sweep.restyle]
  simp only [Document.matchesAt_restyle, hagree.styleAt hlt]
  rw [show (s.sweep.doc.restyle styles lineStates).text = s.sweep.doc.text from rfl, hagree.streamCommentChange hpos hlt]
  rfl

theorem count_restyle :
    (s.restyle styles lineStates).count options = ((s.count options).1.restyle styles lineStates, (s.count options).2) := by
  have hcomment : (s.restyle styles lineStates).commented options = (s.commented options).restyle styles lineStates := by
    unfold commented
    split
    . exact countComment_restyle hagree hpos hlt
    . rfl
  have hstyle : (s.restyle styles lineStates).sweep.doc.styleAt (s.restyle styles lineStates).pos
      = s.sweep.doc.styleAt s.pos := hagree.styleAt hlt
  unfold count
  rw [hcomment, hstyle, countWord_restyle]
  split
  . rfl
  . rfl

theorem step_restyle :
    (s.restyle styles lineStates).step options = (s.step options).restyle styles lineStates := by
  have hstyle : (s.restyle styles lineStates).sweep.doc.styleAt (s.restyle styles lineStates).pos
      = s.sweep.doc.styleAt s.pos := hagree.styleAt hlt
  have hends : endsLine (s.restyle styles lineStates).sweep.doc.text (s.restyle styles lineStates).pos
      = endsLine s.sweep.doc.text s.pos := rfl
  rw [step_eq, step_eq, count_restyle hagree hpos hlt, hstyle, hends]
  unfold restyle
  rw [FoldScan.mk.injEq]
  refine ⟨?_, rfl, rfl, rfl⟩
  rw [← Sweep.see_restyle]
  split
  . rfl
  . rfl

end Count

end FoldScan

def folding (options : FoldOptions) : Folding FoldScan :=
  { start := fun doc pos =>
      { sweep := .start doc (doc.lineOf pos)
        pos
        before := doc.styleBefore pos
        endSeen := false }
    step := fun _ => FoldScan.step options
    sweep := (·.sweep)
    pos := (·.pos)
    count := fun _ s => (s.count options).1.sweep
    closes := fun _ s => endsLine s.sweep.doc.text s.pos
    restyle := FoldScan.restyle
    atElse := false
    compact := options.compact }

theorem lawful_folding (options : FoldOptions) : (folding options).Lawful where
  pos_start := fun _ _ => rfl
  sweep_start := fun _ _ => rfl
  pos_lt := by
    intro _ s
    show s.pos < (s.step options).pos
    rw [FoldScan.step_eq]
    dsimp only
    omega
  endsLine_of_lt := by
    intro _ s q hq hq'
    have hq : s.pos < q := hq
    have hq' : q < (s.step options).pos := hq'
    rw [FoldScan.step_eq] at hq'
    dsimp only at hq'
    rcases FoldScan.width_count options s with hwidth | ⟨hwidth, hword⟩
    . omega
    . rw [show q = s.pos + (q - s.pos) by omega]
      exact endsLine_of_elsif hword (by omega)
  pos_of_endsLine := fun _ _ => FoldScan.pos_step_of_endsLine options
  closes_of_endsLine := fun _ _ hends => hends
  endsLine_of_closes := fun _ _ hends => .inr hends
  doc_count := by
    intro _ s
    obtain ⟨_, _, heq⟩ := FoldScan.recounts_count options s
    show (s.count options).1.sweep.doc = s.sweep.doc
    rw [heq]
  line_count := by
    intro _ s
    obtain ⟨_, _, heq⟩ := FoldScan.recounts_count options s
    show (s.count options).1.sweep.line = s.sweep.line
    rw [heq]
  sweep_step := by
    intro _ s
    show (s.step options).sweep = _
    rw [FoldScan.step_eq]
    rfl
  step_eq_start := by
    intro _ s hends hsweep
    have hends : endsLine s.sweep.doc.text s.pos = true := hends
    have hstyle : (s.step options).sweep.doc.styleBefore (s.pos + 1) = s.sweep.doc.styleAt s.pos := by
      obtain ⟨_, _, heq⟩ := FoldScan.recounts_count options s
      rw [FoldScan.step_eq, if_pos hends, heq]
      show (Sweep.see _ _).doc.styleAt s.pos = _
      rw [Sweep.doc_see]
      rfl
    have hpos := FoldScan.pos_step_of_endsLine options hends
    have hbefore : (s.step options).before = s.sweep.doc.styleAt s.pos := by rw [FoldScan.step_eq]
    have hseen : (s.step options).endSeen = false := by
      rw [FoldScan.step_eq]
      exact if_pos hends
    have hsweep : Sweep.start (s.step options).sweep.doc ((s.step options).sweep.doc.lineOf (s.pos + 1))
      = (s.step options).sweep := hsweep.symm
    show s.step options
      = { sweep := .start (s.step options).sweep.doc ((s.step options).sweep.doc.lineOf (s.pos + 1))
          pos := s.pos + 1
          before := (s.step options).sweep.doc.styleBefore (s.pos + 1)
          endSeen := false }
    rw [hsweep, hstyle, ← hbefore, ← hpos, ← hseen]
  doc_restyle := fun _ _ _ => rfl
  pos_restyle := fun _ _ _ => rfl
  start_restyle := by
    intro doc styles lineStates pos pos' hagree hle
    show FoldScan.mk _ _ ((doc.restyle styles lineStates).styleBefore pos) _ = _
    rw [hagree.styleBefore hle]
    rfl
  step_restyle := fun _ hagree hpos hlt _ _ => FoldScan.step_restyle hagree hpos hlt

/--
The depths that a fold pass over the whole document stores fit.
-/
def LevelsFit (doc : Document) : Prop :=
  (folding (.read doc.options)).LevelsFit doc 0 doc.size

theorem fold_eq {doc : Document} {span : Span} {start stop : Nat} (hle : start ≤ stop)
    (hspan : doc.wholeLines span = doc.spanOf start stop) (keywords : Keywords) :
    fold keywords span doc = (folding (.read doc.options)).fold doc start stop := by
  have hstop : (doc.spanOf start stop).stop = stop := by
    show start + (stop - start) = stop
    omega
  unfold fold
  dsimp only
  rw [hspan, hstop]
  rfl

theorem relevelled_fold (keywords : Keywords) (span : Span) (doc : Document) : doc.Relevelled (fold keywords span doc) :=
  (iterates_repeatWhile _ _ _ _).invariant (fun s : FoldScan => doc.Relevelled s.sweep.doc)
    (fun s _ hs => hs.trans (@Folding.Lawful.relevelled_step _ _ 0 (lawful_folding (.read doc.options)) s)) (.refl doc)

section Overlaid

variable {options : FoldOptions} {base base' : Document} {s s' : FoldScan} {levels : Array Level}

namespace FoldScan

/--
The same scan over a document with other levels.
-/
def relevel (levels : Array Level) (s : FoldScan) : FoldScan :=
  { s with sweep := { s.sweep with doc := { s.sweep.doc with levels } } }

theorem countComment_relevel (s : FoldScan) : (s.relevel levels).countComment = s.countComment.relevel levels := by
  have hmarker : markerChange (s.relevel levels).sweep.doc s.pos = markerChange s.sweep.doc s.pos := by
    unfold markerChange Document.matchesAt
    simp only [Document.holdsAt_congr (show (s.relevel levels).sweep.doc.text = s.sweep.doc.text from rfl)]
  unfold countComment
  dsimp only
  rw [show (s.relevel levels).pos = s.pos from rfl, hmarker]
  rfl

theorem countWord_relevel (s : FoldScan) : (s.relevel levels).countWord = (s.countWord.1.relevel levels, s.countWord.2) := by
  have hcode : ∀ pos, True → codeAt (s.relevel levels).sweep.doc (pos + 0) = codeAt s.sweep.doc pos := fun _ _ => rfl
  have hfound : ∀ word, abbreviatedAt (s.relevel levels).sweep.doc s.pos word = abbreviatedAt s.sweep.doc s.pos word :=
    fun _ => abbreviatedAt_congr hcode (fun _ _ _ _ _ => trivial) trivial
  obtain ⟨sweep, pos, before, endSeen⟩ := s
  dsimp only [relevel] at hfound
  unfold countWord
  dsimp only [relevel]
  simp only [hfound]
  split
  . rfl
  . split
    . cases endSeen with
      | true => rfl
      | false => rfl
    . split
      . rfl
      . split
        . rfl
        . rfl

theorem count_relevel (options : FoldOptions) (s : FoldScan) :
    (s.relevel levels).count options = ((s.count options).1.relevel levels, (s.count options).2) := by
  have hcomment : (s.relevel levels).commented options = (s.commented options).relevel levels := by
    unfold commented
    split
    . exact countComment_relevel s
    . rfl
  unfold count
  rw [hcomment, countWord_relevel, show (s.relevel levels).sweep.doc.styleAt (s.relevel levels).pos = s.sweep.doc.styleAt s.pos from rfl]
  split
  . rfl
  . rfl

/--
The same scan over documents in which the same levels have been written over those of `base` and `base'`.
-/
structure Twin (base base' : Document) (s s' : FoldScan) : Prop where
  sweep : s.sweep.Twin base base' s'.sweep
  eq : s' = { s with sweep := s'.sweep }

namespace Twin

theorem exists_relevel (h : Twin base base' s s') : ∃ levels, s' = s.relevel levels := by
  obtain ⟨levels, _, hdoc⟩ := h.sweep.overlaid.relevelled
  refine ⟨levels, ?_⟩
  rw [h.eq, h.sweep.eq, hdoc]
  rfl

theorem count (options : FoldOptions) (h : Twin base base' s s') :
    Twin base base' (s.count options).1 (s'.count options).1 ∧ (s'.count options).2 = (s.count options).2 := by
  have hoverlaid := h.sweep.overlaid
  obtain ⟨levels, rfl⟩ := h.exists_relevel
  obtain ⟨next, endSeen, heq⟩ := recounts_count options s
  rw [count_relevel]
  refine ⟨⟨⟨?_, rfl⟩, rfl⟩, rfl⟩
  rw [heq]
  exact hoverlaid

theorem step (options : FoldOptions) (h : Twin base base' s s') : Twin base base' (s.step options) (s'.step options) := by
  obtain ⟨hcount, hwidth⟩ := h.count options
  have hpos : s'.pos = s.pos := by rw [h.eq]
  have hends : endsLine s'.sweep.doc.text s.pos = endsLine s.sweep.doc.text s.pos :=
    h.sweep.congr (f := (endsLine ·.text s.pos)) fun _ _ => rfl
  have hbyte : s'.sweep.doc.byteAt s.pos 0x20 = s.sweep.doc.byteAt s.pos 0x20 :=
    h.sweep.congr (f := (·.byteAt s.pos 0x20)) fun _ _ => rfl
  have hstyle : s'.sweep.doc.styleAt s.pos = s.sweep.doc.styleAt s.pos := h.sweep.congr (f := (·.styleAt s.pos)) fun _ _ => rfl
  have hseen : (s'.count options).1.endSeen = (s.count options).1.endSeen := by rw [hcount.eq]
  have hown : (s'.count options).1.sweep.own = (s.count options).1.sweep.own := by rw [hcount.sweep.eq]
  rw [step_eq, step_eq, hpos, hends, hbyte, hstyle, hwidth, hseen, hown]
  exact ⟨.see (.ite (hcount.sweep.closeLine _ _) hcount.sweep) _, rfl⟩

end Twin

end FoldScan

/--
What a pass writes does not depend on the levels that it writes over.
-/
theorem overlaid_fold (options : FoldOptions) {start stop : Nat} (h : base.Relevelled base')
    (hlevel : base'.levelBefore (base.lineOf start) = base.levelBefore (base.lineOf start)) :
    Document.Overlaid base base' ((folding options).fold base start stop) ((folding options).fold base' start stop) := by
  have hstart : FoldScan.Twin base base' ((folding options).start base start) ((folding options).start base' start) := by
    refine ⟨?_, ?_⟩
    . show Sweep.Twin base base' (.start base (base.lineOf start)) (.start base' (base'.lineOf start))
      rw [h.sameSource.lineOf]
      exact .start h hlevel
    . obtain ⟨levels, _, rfl⟩ := h
      rfl
  have hmore : ∀ s s' : FoldScan, FoldScan.Twin base base' s s' → (folding options).more stop s' = (folding options).more stop s := by
    intro s s' hs
    have hpos : s'.pos = s.pos := by rw [hs.eq]
    show decide (s'.pos < stop) = decide (s.pos < stop)
    rw [hpos]
  have hstep : ∀ s s' : FoldScan, FoldScan.Twin base base' s s' → (folding options).more stop s = true →
      FoldScan.Twin base base' (s.step options) (s'.step options) ∧ stop - (s.step options).pos < stop - s.pos := by
    intro s s' hs hmore
    have hpos : s.pos < (s.step options).pos := (lawful_folding options).pos_lt stop s
    have hlt : s.pos < stop := Folding.more_iff.mp hmore
    exact ⟨hs.step options, by omega⟩
  exact (repeatWhile_lockstep (fun s => stop - s.pos) hmore hstep hstart (Nat.le_refl _) (Nat.le_refl _)).sweep.overlaid

end Overlaid

section Front

variable {storing : Prop} {limit pos : Nat}

/--
A word of letters does not go over the end of a line.
-/
theorem abbreviatedAt_front {doc doc' : Document} (h : doc.AlikeUpTo storing limit doc') (hpos : pos < limit) {word : String}
    (hletters : ∀ c ∈ (Utf8.encode word).map UInt8.toNat, Code.isLower c = true) :
    abbreviatedAt doc' pos word = abbreviatedAt doc pos word := by
  have hcode : ∀ pos, Document.AlikeUpTo.Shown limit doc doc' pos → codeAt doc' (pos + 0) = codeAt doc pos := by
    intro pos hshown
    rw [codeAt, codeAt, Nat.add_zero, h.byteAt hshown]
  exact abbreviatedAt_congr hcode
    (fun c hc pos hshown hlower => h.shown_succ hshown (endsLine_of_lowerAt hlower (hletters c hc))) (.inl hpos)

namespace FoldScan

variable {options : FoldOptions} {s s' : FoldScan}

/--
The same scan over two documents that show the same up to `limit` and have the same levels so far.
-/
structure Abreast (storing : Prop) (limit : Nat) (s s' : FoldScan) : Prop where
  sweep : s.sweep.Abreast storing limit s'.sweep
  pos : s'.pos = s.pos
  before : s'.before = s.before
  endSeen : s'.endSeen = s.endSeen

namespace Abreast

variable (h : Abreast storing limit s s') (hpos : s.pos < limit)
include h hpos

theorem countComment : Abreast storing limit s.countComment s'.countComment := by
  have hstyle : s'.sweep.doc.styleAt s'.pos = s.sweep.doc.styleAt s.pos := by rw [h.pos, h.sweep.docs.styleAt (.inl hpos)]
  have hmarker : markerChange s'.sweep.doc s'.pos = markerChange s.sweep.doc s.pos := by
    unfold markerChange
    rw [h.pos, h.sweep.docs.matchesAt (.inl hpos) (s := "--\x7b") (by decide),
      h.sweep.docs.matchesAt (.inl hpos) (s := "--\x7d") (by decide)]
  have hstream := h.sweep.docs.streamCommentChange hpos isStreamComment s.before (s.sweep.doc.styleAt s.pos)
  unfold FoldScan.countComment
  dsimp only
  rw [hstyle, hmarker, h.before, h.pos, hstream]
  exact ⟨(h.sweep.shift _).shift _, rfl, rfl, h.endSeen⟩

theorem countWord : Abreast storing limit s.countWord.1 s'.countWord.1 ∧ s'.countWord.2 = s.countWord.2 := by
  have hletters : ∀ word ∈ ["elsif", "if", "loop", "begin", "end"], ∀ c ∈ (Utf8.encode word).map UInt8.toNat,
      Code.isLower c = true := by
    decide
  have hfound : ∀ word ∈ ["elsif", "if", "loop", "begin", "end"],
      abbreviatedAt s'.sweep.doc s'.pos word = abbreviatedAt s.sweep.doc s.pos word := by
    intro word hword
    rw [h.pos, abbreviatedAt_front h.sweep.docs hpos (hletters word hword)]
  have hnext : s'.sweep.next = s.sweep.next := by rw [h.sweep.eq]
  unfold FoldScan.countWord
  dsimp only
  simp only [hfound "elsif" (by decide), hfound "if" (by decide), hfound "loop" (by decide), hfound "begin" (by decide),
    hfound "end" (by decide), h.endSeen, hnext]
  split
  . exact ⟨h, rfl⟩
  . split
    . split
      . exact ⟨{ h with endSeen := rfl }, rfl⟩
      . exact ⟨{ h with sweep := h.sweep.shift 1, endSeen := rfl }, rfl⟩
    . split
      . exact ⟨{ h with sweep := h.sweep.shift 1, endSeen := rfl }, rfl⟩
      . split
        . refine ⟨{ h with sweep := ⟨h.sweep.docs, h.sweep.levels, ?_⟩, endSeen := rfl }, rfl⟩
          rw [h.sweep.eq]
        . exact ⟨h, rfl⟩

theorem count (options : FoldOptions) :
    Abreast storing limit (s.count options).1 (s'.count options).1 ∧ (s'.count options).2 = (s.count options).2 := by
  have hstyle : s'.sweep.doc.styleAt s'.pos = s.sweep.doc.styleAt s.pos := by rw [h.pos, h.sweep.docs.styleAt (.inl hpos)]
  have hcommented : Abreast storing limit (s.commented options) (s'.commented options) := by
    unfold commented
    split
    . exact h.countComment hpos
    . exact h
  obtain ⟨_, _, heq⟩ := recounts_commented options s
  unfold FoldScan.count
  rw [hstyle]
  split
  . exact hcommented.countWord (by rw [heq]; exact hpos)
  . exact ⟨hcommented, rfl⟩

theorem step (options : FoldOptions) (hline : s.sweep.line = s.sweep.doc.lineOf s.pos) :
    Abreast storing limit (s.step options) (s'.step options) := by
  obtain ⟨hcount, hwidth⟩ := h.count hpos options
  obtain ⟨_, _, heq⟩ := recounts_count options s
  obtain ⟨hlt, hlt'⟩ := hcount.sweep.line_lt hpos (by rw [heq]; exact hline)
  have hown : (s'.count options).1.sweep.own = (s.count options).1.sweep.own := by rw [hcount.sweep.eq]
  have hends : endsLine s'.sweep.doc.text s'.pos = endsLine s.sweep.doc.text s.pos := by rw [h.pos, h.sweep.docs.endsLine_eq hpos]
  have hbyte : s'.sweep.doc.byteAt s'.pos 0x20 = s.sweep.doc.byteAt s.pos 0x20 := by rw [h.pos, h.sweep.docs.byteAt (.inl hpos)]
  have hstyle : s'.sweep.doc.styleAt s'.pos = s.sweep.doc.styleAt s.pos := by rw [h.pos, h.sweep.docs.styleAt (.inl hpos)]
  rw [step_eq, step_eq, hends, hbyte, hstyle, hwidth, h.pos, hown, hcount.endSeen]
  exact ⟨.see (.ite (hcount.sweep.closeLine hlt hlt' _ _) hcount.sweep) _, rfl, rfl, rfl⟩

end Abreast

end FoldScan

/--
Words and markers are found on their line.
-/
theorem frontal_folding (options : FoldOptions) : (folding options).Frontal storing False (FoldScan.Abreast storing) where
  toLawful := lawful_folding options
  sweep := FoldScan.Abreast.sweep
  pos := FoldScan.Abreast.pos
  start := by
    intro limit doc doc' start halike hle hlevels
    refine ⟨?_, rfl, halike.styleBefore hle, rfl⟩
    show (Sweep.start doc (doc.lineOf start)).Abreast storing limit (Sweep.start doc' (doc'.lineOf start))
    rw [halike.lineOf_eq hle]
    exact .start halike hlevels
  step := fun h hpos hline _ _ _ _ => h.step hpos options hline
  closes := False.elim

end Front

end Highlight.Sql
