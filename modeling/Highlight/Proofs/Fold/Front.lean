import Highlight.Proofs.Document.Front
import Highlight.Proofs.Fold.Overlay

/-!
Folding documents that show the same up to a limit. Passes that go on from the same depths store the same levels for
the lines in front of the limit, whatever levels there have been.
-/

namespace Highlight

open LineIndex

namespace Document

variable {storing closing : Prop} {anchored : Nat → Prop} {limit limit' pos stop stop' : Nat} {doc doc' doc'' next next' : Document}

namespace AlikeUpTo

variable (h : AlikeUpTo storing limit doc doc')
include h

theorem relevelled (hdoc : doc.Relevelled next) (hdoc' : doc'.Relevelled next') : AlikeUpTo storing limit next next' := by
  have hwell := hdoc.sameSource.wellFormed h.wellFormed
  have hwell' := hdoc'.sameSource.wellFormed h.wellFormed'
  obtain ⟨levels, _, rfl⟩ := hdoc
  obtain ⟨levels', _, rfl⟩ := hdoc'
  exact ⟨hwell, hwell', h.not_mem, h.not_mem', h.options, h.ends, h.text, h.styles, h.lineStates⟩

/--
At the end of a line, folding does not look at the style of the byte behind it.
-/
theorem streamCommentChange (hpos : pos < limit) (isComment : Style → Bool) (before style : Style) :
    streamCommentChange isComment before style (doc'.styleAt (pos + 1)) (endsLine doc'.text pos)
      = streamCommentChange isComment before style (doc.styleAt (pos + 1)) (endsLine doc.text pos) := by
  rw [h.endsLine_eq hpos]
  cases hends : endsLine doc.text pos with
  | true => simp only [Highlight.streamCommentChange, Bool.not_true, Bool.and_false]
  | false => rw [h.styleAt (h.shown_succ (.inl hpos) hends)]

/--
Lines are closed where they end, or where both passes do.
-/
theorem closesLine (hpos : pos < limit) (hstop : limit ≤ stop) (hsize : stop ≤ doc.size) (hstop' : limit ≤ stop')
    (hsize' : stop' ≤ doc'.size) (closingLast : Bool) :
    doc'.closesLine closingLast stop' pos = doc.closesLine closingLast stop pos := by
  rcases h.stops hstop hsize hstop' hsize' with ⟨hstart, hstart'⟩ | ⟨rfl, rfl⟩
  . rw [doc.closesLine_eq hstart hpos hstop, doc'.closesLine_eq hstart' hpos hstop', h.endsLine_eq hpos]
  . rw [Document.closesLine, Document.closesLine, h.endsLine_eq hpos]

end AlikeUpTo

/--
The lines that a pass up to `pos` stores a level for: those that end in front of `pos`, and, if it is `closing`, all
that have a byte there.
-/
def Closed (closing : Prop) (doc : Document) (pos line : Nat) : Prop :=
  line < doc.lineOf pos ∨ closing ∧ line < doc.linesTo pos

theorem WellFormed.closed_iff (h : doc.WellFormed) (hpos : startsLine doc.text pos = true) (line : Nat) :
    doc.Closed closing pos line ↔ line < doc.lineOf pos := by
  rw [Closed, h.linesTo_of_startsLine hpos]
  exact ⟨fun hline => hline.elim id And.right, .inl⟩

theorem WellFormed.closed_mono (h : doc.WellFormed) {pos' line : Nat} (hle : pos ≤ pos') (hline : doc.Closed closing pos line) :
    doc.Closed closing pos' line :=
  hline.imp (fun hlt => Nat.lt_of_lt_of_le hlt (h.lineOf_mono hle))
    (fun hlt => ⟨hlt.1, Nat.lt_of_lt_of_le hlt.2 (h.linesTo_mono hle)⟩)

theorem SameSource.closed (h : doc.SameSource doc') (pos line : Nat) : doc'.Closed closing pos line ↔ doc.Closed closing pos line := by
  rw [Closed, Closed, linesTo, linesTo, h.lineOf, h.lineOf]

theorem AlikeUpTo.closed (h : AlikeUpTo storing limit doc doc') (hpos : pos ≤ limit) (line : Nat) :
    doc'.Closed closing pos line ↔ doc.Closed closing pos line := by
  rw [Closed, Closed, h.lineOf_eq hpos, h.linesTo_eq hpos]

/--
Two documents with the same levels in front of `limit`. If the line of `limit` is `anchored`, its level keeps the same
depth in both.
-/
structure LevelsUpTo (closing : Prop) (anchored : Nat → Prop) (limit : Nat) (doc doc' : Document) : Prop where
  levels : ∀ l : Nat, doc.Closed closing limit l → doc'.levels[l]? = doc.levels[l]?
  number : anchored (doc.lineOf limit) → (doc'.level (doc.lineOf limit)).number = (doc.level (doc.lineOf limit)).number

namespace LevelsUpTo

theorem refl (closing : Prop) (anchored : Nat → Prop) (limit : Nat) (doc : Document) : LevelsUpTo closing anchored limit doc doc :=
  ⟨fun _ _ => rfl, fun _ => rfl⟩

theorem zero (hdoc : doc.WellFormed) (h : anchored 0 → (doc'.level 0).number = (doc.level 0).number) :
    LevelsUpTo closing anchored 0 doc doc' where
  levels := by
    intro l hl
    rw [hdoc.closed_iff startsLine_zero, hdoc.lineOf_zero] at hl
    exact absurd hl (Nat.not_lt_zero l)
  number := by
    rw [hdoc.lineOf_zero]
    exact h

theorem restrict (h : LevelsUpTo closing anchored limit doc doc') (hdoc : doc.WellFormed) (hle : limit' ≤ limit) :
    LevelsUpTo closing anchored limit' doc doc' where
  levels := fun l hl => h.levels l (hdoc.closed_mono hle hl)
  number := by
    intro hanchored
    rcases Nat.eq_or_lt_of_le (hdoc.lineOf_mono hle) with heq | hlt
    . rw [heq] at hanchored ⊢
      exact h.number hanchored
    . rw [level, level, h.levels _ (.inl hlt)]

section Alike

variable (halike : AlikeUpTo storing limit doc doc')
include halike

theorem trans (h : LevelsUpTo closing anchored limit doc doc') (h' : LevelsUpTo closing anchored limit doc' doc'') :
    LevelsUpTo closing anchored limit doc doc'' where
  levels := fun l hl => (h'.levels l ((halike.closed (Nat.le_refl limit) l).mpr hl)).trans (h.levels l hl)
  number := by
    have hline := halike.lineOf_eq (Nat.le_refl limit)
    intro hanchored
    have hnumber := h'.number (by rwa [hline])
    rw [hline] at hnumber
    exact hnumber.trans (h.number hanchored)

theorem symm (h : LevelsUpTo closing anchored limit doc doc') : LevelsUpTo closing anchored limit doc' doc where
  levels := fun l hl => (h.levels l ((halike.closed (Nat.le_refl limit) l).mp hl)).symm
  number := by
    rw [halike.lineOf_eq (Nat.le_refl limit)]
    exact fun hanchored => (h.number hanchored).symm

end Alike

end LevelsUpTo

end Document

namespace Sweep

/--
The same sweep over two documents that show the same up to `limit` and have the same levels so far.
-/
structure Abreast (storing : Prop) (limit : Nat) (sweep sweep' : Sweep) : Prop where
  docs : sweep.doc.AlikeUpTo storing limit sweep'.doc
  levels : ∀ l : Nat, l < sweep.line → sweep'.doc.levels[l]? = sweep.doc.levels[l]?
  eq : sweep' = { sweep with doc := sweep'.doc }

namespace Abreast

variable {storing : Prop} {limit : Nat} {sweep sweep' other other' : Sweep} {doc doc' : Document}

theorem ofDepth (h : doc.AlikeUpTo storing limit doc') {line : Nat} (hlevels : ∀ l : Nat, l < line → doc'.levels[l]? = doc.levels[l]?)
    (depth : Int) : Abreast storing limit (.ofDepth doc line depth) (.ofDepth doc' line depth) :=
  ⟨h, hlevels, rfl⟩

theorem start (h : doc.AlikeUpTo storing limit doc') {line : Nat} (hlevels : ∀ l : Nat, l < line → doc'.levels[l]? = doc.levels[l]?) :
    Abreast storing limit (.start doc line) (.start doc' line) := by
  have hbefore : doc'.levelBefore line = doc.levelBefore line := by
    unfold Document.levelBefore
    split
    . rw [Document.level, Document.level, hlevels (line - 1) (by omega)]
    . rfl
  rw [Sweep.start, Sweep.start, hbefore]
  exact .ofDepth h hlevels _

theorem line (h : Abreast storing limit sweep sweep') : sweep'.line = sweep.line := by
  rw [h.eq]

theorem shift (h : Abreast storing limit sweep sweep') (change : Int) : Abreast storing limit (sweep.shift change) (sweep'.shift change) :=
  ⟨h.docs, h.levels, by rw [h.eq]; rfl⟩

theorem brace (h : Abreast storing limit sweep sweep') (b : UInt8) : Abreast storing limit (sweep.brace b) (sweep'.brace b) := by
  unfold Sweep.brace
  split
  . exact ⟨h.docs, h.levels, by rw [h.eq]; rfl⟩
  . split
    . exact h.shift _
    . exact h

theorem see (h : Abreast storing limit sweep sweep') (b : UInt8) : Abreast storing limit (sweep.see b) (sweep'.see b) := by
  unfold Sweep.see
  split
  . exact h
  . exact ⟨h.docs, h.levels, by rw [h.eq]⟩

theorem storeLevel (h : Abreast storing limit sweep sweep') (hline : sweep.line < sweep.doc.lineCount)
    (hline' : sweep.line < sweep'.doc.lineCount) (level : Level) :
    Abreast storing limit (sweep.storeLevel level) (sweep'.storeLevel level) where
  docs := h.docs.relevelled (.setLevel _ _ _) (.setLevel _ _ _)
  levels := by
    intro l hl
    show (sweep'.doc.setLevel sweep'.line level).levels[l]? = (sweep.doc.setLevel sweep.line level).levels[l]?
    have hl : l < sweep.line + 1 := hl
    rw [h.line, Document.getElem?_setLevel, Document.getElem?_setLevel]
    split
    . next heq =>
      subst heq
      rw [Array.getElem?_eq_getElem (by rw [h.docs.wellFormed'.levels]; exact hline'),
        Array.getElem?_eq_getElem (by rw [h.docs.wellFormed.levels]; exact hline)]
      rfl
    . exact h.levels l (by omega)
  eq := by
    rw [h.eq]
    rfl

theorem closeLine (h : Abreast storing limit sweep sweep') (hline : sweep.line < sweep.doc.lineCount)
    (hline' : sweep.line < sweep'.doc.lineCount) (own : Int) (compact : Bool) :
    Abreast storing limit (sweep.closeLine own compact) (sweep'.closeLine own compact) := by
  have hlevel : Level.compose (Int32.ofInt own) (Int32.ofInt sweep'.next) sweep'.visible compact
      = Level.compose (Int32.ofInt own) (Int32.ofInt sweep.next) sweep.visible compact := by
    rw [h.eq]
  rw [Sweep.closeLine, Sweep.closeLine, hlevel]
  exact h.storeLevel hline hline' _

theorem ite {p : Prop} [Decidable p] (h : Abreast storing limit sweep sweep') (h' : Abreast storing limit other other') :
    Abreast storing limit (if p then sweep else other) (if p then sweep' else other') := by
  split
  . exact h
  . exact h'

/--
A sweep in front of the limit is on a line of both documents.
-/
theorem line_lt (h : Abreast storing limit sweep sweep') {pos : Nat} (hpos : pos < limit) (hline : sweep.line = sweep.doc.lineOf pos) :
    sweep.line < sweep.doc.lineCount ∧ sweep.line < sweep'.doc.lineCount := by
  rw [hline]
  refine ⟨h.docs.wellFormed.lineOf_lt pos, ?_⟩
  rw [← h.docs.lineOf_eq (Nat.le_of_lt hpos)]
  exact h.docs.wellFormed'.lineOf_lt pos

end Abreast

end Sweep

namespace Folding

variable {σ : Type} {m : Folding σ} {storing closing : Prop} {rel : Nat → σ → σ → Prop} {doc doc' : Document} {start limit stop stop' : Nat}
  {s s' t u : σ}

/--
What makes a fold pass one that goes by nothing behind a limit: `rel limit` holds of two scans that stand at the same
place of documents that show the same up to there, and their steps keep it. Only if this is `closing`, a pass closes a
last line that no terminator ends.
-/
structure Frontal (m : Folding σ) (storing closing : Prop) (rel : Nat → σ → σ → Prop) : Prop extends m.Lawful where
  sweep : ∀ {limit s s'}, rel limit s s' → (m.sweep s).Abreast storing limit (m.sweep s')
  pos : ∀ {limit s s'}, rel limit s s' → m.pos s' = m.pos s
  start : ∀ {limit doc doc' start}, doc.AlikeUpTo storing limit doc' → start ≤ limit →
    (∀ l : Nat, l < doc.lineOf start → doc'.levels[l]? = doc.levels[l]?) → rel limit (m.start doc start) (m.start doc' start)
  step : ∀ {limit stop stop' s s'}, rel limit s s' → m.pos s < limit → (m.sweep s).line = (m.doc s).lineOf (m.pos s) →
    limit ≤ stop → stop ≤ (m.doc s).size → limit ≤ stop' → stop' ≤ (m.doc s').size → rel limit (m.step stop s) (m.step stop' s')
  closes : closing → ∀ stop s, m.pos (m.step stop s) = m.pos s + 1 ∧ (m.pos s + 1 = stop → m.closes stop s = true)

/--
A pass does not come back to a line that it has left.
-/
theorem Lawful.levels_of_run (h : m.Lawful) (hrun : Iterates (m.more stop) (m.step stop) t u) {l : Nat} (hl : l < (m.sweep t).line) :
    (m.doc u).levels[l]? = (m.doc t).levels[l]? := by
  refine (hrun.invariant (fun u => (m.doc u).levels[l]? = (m.doc t).levels[l]? ∧ l < (m.sweep u).line) ?_ ⟨rfl, hl⟩).1
  rintro u _ ⟨hlevels, hlt⟩
  refine ⟨?_, Nat.lt_of_lt_of_le hlt (h.line_step stop u ▸ Nat.le_add_right _ _)⟩
  rw [← hlevels, Folding.doc.eq_1 m (m.step stop u), h.sweep_step, Sweep.doc_see]
  split
  . show ((m.count stop u).doc.setLevel (m.count stop u).line _).levels[l]? = _
    rw [Document.getElem?_setLevel, if_neg (by rw [h.line_count]; omega), h.doc_count]
  . rw [h.doc_count]

/--
A step that does not come to the end of the pass stays on the line that it counts.
-/
theorem Lawful.scans_step_of_lt (h : m.Lawful) (hdoc : doc.WellFormed) (hs : m.Scans doc s) (hlt : m.pos (m.step stop s) < stop) :
    m.Scans doc (m.step stop s) := by
  have hpos := h.pos_lt stop s
  have hcloses : m.closes stop s = endsLine doc.text (m.pos s) := by
    rw [Bool.eq_iff_iff, ← hs.text_eq]
    exact ⟨fun hcloses => (h.endsLine_of_closes stop s hcloses).resolve_left (by omega), h.closes_of_endsLine stop s⟩
  refine ⟨hs.relevelled.trans (h.relevelled_step s), ?_⟩
  rw [h.line_step, h.lineOf_step hdoc hs, hcloses, hs.line]

namespace Frontal

variable (h : m.Frontal storing closing rel)
include h

/--
Behind the last step in front of the limit, all lines that end there have been closed.
-/
theorem closed_lt_line (hdoc : doc.WellFormed) (hs : m.Scans doc s) (hpos : m.pos s < limit) (hlimit : limit ≤ m.pos (m.step stop s))
    (hends : startsLine doc.text limit = true ∨ stop = limit) {l : Nat} (hl : doc.Closed closing limit l) :
    l < (m.sweep (m.step stop s)).line := by
  have hline := h.line_step stop s
  have hlineOf : doc.lineOf (m.pos (m.step stop s)) = doc.lineOf (m.pos s) + if endsLine doc.text (m.pos s) then 1 else 0 :=
    h.lineOf_step hdoc hs
  have hmono := hdoc.lineOf_mono hlimit
  have hcloses : endsLine doc.text (m.pos s) = true → m.closes stop s = true := fun hends =>
    h.closes_of_endsLine stop s (by rw [hs.text_eq]; exact hends)
  have hle : doc.lineOf (m.pos (m.step stop s)) ≤ (m.sweep (m.step stop s)).line := by
    rw [hline, hlineOf, hs.line]
    split
    . next hends => exact Nat.le_of_eq (by rw [if_pos (hcloses hends)])
    . exact Nat.le_add_right _ _
  rcases hl with hl | ⟨hclosing, hl⟩
  . omega
  . obtain ⟨hstep, hlast⟩ := h.closes hclosing stop s
    rcases hends with hstart | rfl
    . rw [hdoc.linesTo_of_startsLine hstart] at hl
      omega
    . rw [Document.linesTo, if_neg (by omega), show stop - 1 = m.pos s by omega] at hl
      rw [hline, if_pos (hlast (by omega)), hs.line]
      exact hl

/--
Two scans of documents that show the same come to the limit, and have closed the same lines there.
-/
theorem exists_run (hs : rel limit s s') (hscans : m.Scans doc s) (hstart : startsLine doc.text (m.pos s) = true)
    (hle : m.pos s ≤ limit) (hstop : limit ≤ stop) (hsize : stop ≤ (m.doc s).size) (hstop' : limit ≤ stop')
    (hsize' : stop' ≤ (m.doc s').size) :
    ∃ t t', Iterates (m.more limit) (m.step stop) s t ∧ Iterates (m.more limit) (m.step stop') s' t' ∧ rel limit t t'
      ∧ ∀ l, doc.Closed closing limit l → l < (m.sweep t).line := by
  have hdocs := (h.sweep hs).docs
  have hsource := hscans.relevelled.sameSource
  have hdoc : doc.WellFormed := hsource.symm.wellFormed hdocs.wellFormed
  have hends : startsLine doc.text limit = true ∨ stop = limit := by
    rw [← hsource.text]
    exact (hdocs.stops hstop hsize hstop' hsize').imp And.left And.left
  have hrun := iterates_repeatWhile (m.more limit) (m.step stop) (limit - m.pos s) s
  have hend : m.more limit (repeatWhile (m.more limit) (m.step stop) (limit - m.pos s) s) = false := by
    refine more_repeatWhile _ _ (fun s => limit - m.pos s) ?_ _ _ (Nat.le_refl _)
    intro s hmore
    have := h.pos_lt stop s
    have := more_iff.mp hmore
    omega
  generalize repeatWhile (m.more limit) (m.step stop) (limit - m.pos s) s = t at hrun hend
  rw [hsource.size] at hsize
  -- In front of the limit, the scans stand on the line that they count.
  obtain ⟨t', hrun', hrel, _, _, hclosed⟩ : ∃ t', Iterates (m.more limit) (m.step stop') s' t' ∧ rel limit t t' ∧ _ := hrun.lockstep
    (R := fun u' u => rel limit u u' ∧ (m.doc u').size = (m.doc s').size ∧ (m.pos u < limit → m.Scans doc u)
      ∧ (limit ≤ m.pos u → ∀ l, doc.Closed closing limit l → l < (m.sweep u).line))
    (by
      rintro u' u ⟨hu, _⟩ hmore
      rw [more_iff, h.pos hu]
      exact more_iff.mp hmore)
    (by
      rintro u' u ⟨hu, hsizes, hfront, _⟩ hmore
      have hlt := more_iff.mp hmore
      have hscans := hfront hlt
      have hsource := hscans.relevelled.sameSource
      refine ⟨h.step hu hlt ?_ hstop ?_ hstop' (by rw [hsizes]; exact hsize'), ?_, ?_, ?_⟩
      . rw [hscans.line, hsource.lineOf]
      . rw [hsource.size]
        exact hsize
      . rw [(h.relevelled_step u').sameSource.size, hsizes]
      . exact fun hlt => h.scans_step_of_lt hdoc hscans (Nat.lt_of_lt_of_le hlt hstop)
      . exact fun hge l hl => h.closed_lt_line hdoc hscans hlt hge hends hl)
    ⟨hs, rfl, fun _ => hscans, by
      intro hge l hl
      have hpos : m.pos s = limit := Nat.le_antisymm hle hge
      rw [hpos] at hstart
      rw [hscans.line, hpos]
      exact (hdoc.closed_iff hstart l).mp hl⟩
  exact ⟨t, t', hrun, hrun', hrel, hclosed (not_more_iff.mp hend)⟩

/--
Passes over documents that show the same up to a limit store the same levels for the lines in front of it, if they go
on from the same levels.
-/
theorem levels_run (hs : rel limit s s') (hscans : m.Scans doc s) (hstart : startsLine doc.text (m.pos s) = true)
    (hle : m.pos s ≤ limit) (hstop : limit ≤ stop) (hsize : stop ≤ (m.doc s).size) (hstop' : limit ≤ stop')
    (hsize' : stop' ≤ (m.doc s').size) {l : Nat} (hl : doc.Closed closing limit l) :
    (m.doc (m.run stop' s')).levels[l]? = (m.doc (m.run stop s)).levels[l]? := by
  obtain ⟨t, t', hrun, hrun', hrel, hclosed⟩ := h.exists_run hs hscans hstart hle hstop hsize hstop' hsize'
  have hlt := hclosed l hl
  have hsweep := h.sweep hrel
  have hmore : ∀ {stop}, limit ≤ stop → ∀ s, m.more limit s = true → m.more stop s = true :=
    fun hstop s hmore => more_iff.mpr (Nat.lt_of_lt_of_le (more_iff.mp hmore) hstop)
  obtain ⟨hwhole, hover⟩ := h.run_spec stop s
  obtain ⟨hwhole', hover'⟩ := h.run_spec stop' s'
  rw [h.levels_of_run ((hrun.mono (hmore hstop)).rest hwhole hover) hlt,
    h.levels_of_run ((hrun'.mono (hmore hstop')).rest hwhole' hover') (by rw [hsweep.line]; exact hlt)]
  exact hsweep.levels l hlt

theorem levels_fold (halike : doc.AlikeUpTo storing limit doc') (hlevels : ∀ l : Nat, l < doc.lineOf start → doc'.levels[l]? = doc.levels[l]?)
    (hstart : startsLine doc.text start = true) (hle : start ≤ limit) (hstop : limit ≤ stop) (hsize : stop ≤ doc.size)
    (hstop' : limit ≤ stop') (hsize' : stop' ≤ doc'.size) {l : Nat} (hl : doc.Closed closing limit l) :
    (m.fold doc' start stop').levels[l]? = (m.fold doc start stop).levels[l]? := by
  have hpos := h.pos_start doc start
  exact h.levels_run (h.start halike hle hlevels) h.scans_start (by rwa [hpos]) (by rwa [hpos]) hstop (by rwa [h.doc_start]) hstop'
    (by rwa [h.doc_start]) hl

end Frontal

end Folding

namespace ByteFold

variable {m : ByteFold} {storing : Prop}

/--
What counting has to fulfil for a pass over bytes to go by nothing behind a limit.
-/
structure Frontal (m : ByteFold) (storing : Prop) : Prop extends m.Lawful where
  count : ∀ {limit pos stop stop' : Nat} {sweep sweep' : Sweep}, sweep.Abreast storing limit sweep' → pos < limit →
    sweep.line = sweep.doc.lineOf pos → limit ≤ stop → stop ≤ sweep.doc.size → limit ≤ stop' → stop' ≤ sweep'.doc.size →
    (m.count stop sweep pos).Abreast storing limit (m.count stop' sweep' pos)

theorem Frontal.folding (h : m.Frontal storing) : m.folding.Frontal storing (m.closingLast = true)
    (fun limit s s' => s.sweep.Abreast storing limit s'.sweep ∧ s'.pos = s.pos) where
  toLawful := h.toLawful.folding
  sweep := And.left
  pos := And.right
  start := by
    intro limit doc doc' start halike hle hlevels
    refine ⟨?_, rfl⟩
    show (Sweep.start doc (doc.lineOf start)).Abreast storing limit (Sweep.start doc' (doc'.lineOf start))
    rw [halike.lineOf_eq hle]
    exact .start halike hlevels
  step := by
    rintro limit stop stop' ⟨sweep, _⟩ ⟨sweep', pos⟩ ⟨hsweep, rfl⟩ hlt hline hstop hsize hstop' hsize'
    have hsweep : sweep.Abreast storing limit sweep' := hsweep
    have hlt : pos < limit := hlt
    have hline : sweep.line = sweep.doc.lineOf pos := hline
    have hcounted := h.count hsweep hlt hline hstop hsize hstop' hsize'
    have hcloses : m.closes stop' sweep' pos = m.closes stop sweep pos :=
      hsweep.docs.closesLine hlt hstop hsize hstop' hsize' m.closingLast
    have hdepth : (m.count stop' sweep' pos).depth m.atElse = (m.count stop sweep pos).depth m.atElse := by
      rw [hcounted.eq]
      rfl
    obtain ⟨hcount, hcount'⟩ := hcounted.line_lt hlt (by rw [h.line_count, h.doc_count, hline])
    refine ⟨?_, rfl⟩
    show (m.foldByte stop sweep pos).Abreast storing limit (m.foldByte stop' sweep' pos)
    unfold foldByte
    dsimp only
    rw [hcloses, hdepth, hsweep.docs.byteAt (.inl hlt)]
    exact .see (.ite (hcounted.closeLine hcount hcount' _ _) hcounted) _
  closes := by
    intro hclosing stop s
    refine ⟨rfl, fun hlast => ?_⟩
    show (endsLine s.sweep.doc.text s.pos || (m.closingLast && s.pos + 1 == stop)) = true
    have hlast : s.pos + 1 = stop := hlast
    rw [hclosing, hlast, beq_self_eq_true, Bool.and_self, Bool.or_true]

end ByteFold

end Highlight
