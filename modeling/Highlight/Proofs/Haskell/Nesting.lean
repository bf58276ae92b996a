import Highlight.Proofs.Cursor.Moves
import Highlight.Proofs.Haskell.Ends
import Highlight.Proofs.Text.Brackets

/-!
The depth of the block comments of Haskell in a pass from the start of the text: what the pairs of a brace and a dash come to
from where the comment was opened. The comment ends where that is zero, and a line that ends in it stores the depth.
-/

namespace Highlight.Haskell

open Cursor LineIndex Brackets

variable {doc : Document} {keywords : Keywords} {settings : Settings} {s t l : Scan} {q : Nat}

/--
What opens and closes a block comment.
-/
def block : Brackets :=
  { opener := ('\x7b'.toUInt8, '-'.toUInt8)
    closer := ('-'.toUInt8, '\x7d'.toUInt8) }

/--
The scans that a pass over all of a text comes by.
-/
def Visits (keywords : Keywords) (doc : Document) (s : Scan) : Prop :=
  Iterates (·.cursor.more) (Scan.step (.read keywords doc.options)) (.ofSpan ⟨0, doc.size, Style.default⟩ doc) s

/--
The scan within a step, when the open token has ended or gone on.
-/
def Scan.left (settings : Settings) (s : Scan) : Scan :=
  s.storeLines.leave settings

/--
A scan between two steps in the block comment that was opened outside of a token at `q`. What opens a pragma opens no comment.
-/
inductive InBlock (keywords : Keywords) (doc : Document) (q : Nat) : Scan → Prop where
  | opens {s : Scan} : Visits keywords doc s → s.cursor.more = true
    → (s.left (.read keywords doc.options)).cursor.state = Style.default
    → (s.left (.read keywords doc.options)).cursor.pos = q → StandsAt block.opener doc q
    → (s.step (.read keywords doc.options)).cursor.state = Style.commentBlock
    → InBlock keywords doc q (s.step (.read keywords doc.options))
  | goesOn {s : Scan} : InBlock keywords doc q s → s.cursor.more = true
    → (s.left (.read keywords doc.options)).cursor.state = Style.commentBlock
    → InBlock keywords doc q (s.step (.read keywords doc.options))

theorem ascii_block : block.opener.1.toNat < 0x80 ∧ block.closer.1.toNat < 0x80 := by
  decide

theorem seesPair_opener_iff {c : Cursor} (hc : c.OnText doc) :
    c.seesPair '\x7b' '-' = true ↔ StandsAt block.opener doc c.pos :=
  hc.seesPair_iff (by decide) (by decide)

theorem seesPair_closer_iff {c : Cursor} (hc : c.OnText doc) :
    c.seesPair '-' '\x7d' = true ↔ StandsAt block.closer doc c.pos :=
  hc.seesPair_iff (by decide) (by decide)

/--
All of a text as one part of a pass.
-/
def wholeOf (doc : Document) : View :=
  partOf doc ⟨0, doc.size, Style.default⟩ doc.size true

theorem reach_wholeOf (doc : Document) : (wholeOf doc).reach = doc.size + 1 :=
  View.reach_of_whole rfl

theorem walkEnd_whole (hdoc : doc.WellFormed) : Cursor.walkEnd doc ⟨0, doc.size, Style.default⟩ = doc.size + 1 :=
  (Cursor.stop_start _ _).symm.trans (OnText.start hdoc Style.default).1.stop

namespace Scan

/--
What a pass over all of a text can stand at.
-/
abbrev Placed (doc : Document) (s : Scan) : Prop :=
  Near (wholeOf doc) (Pen.Same (wholeOf doc) doc) s s

theorem Near.onText (hdoc : doc.WellFormed) (h : s.Placed doc) : s.cursor.OnText doc where
  source := h.cursor.pen.2.sameSource
  settled := h.cursor.settled
  stop := h.cursor.stop.trans (walkEnd_whole hdoc)
  pos_le := Nat.le_trans h.cursor.le_reach (Nat.le_of_eq (reach_wholeOf doc))

/--
A block comment only starts with the two characters that open it, and so behind the start of its line.
-/
structure Opens (doc : Document) (l t : Scan) : Prop where
  stands : StandsAt block.opener doc l.cursor.pos
  pos : t.cursor.pos = l.cursor.pos + 2
  extra : t.memory.extra = 1
  inside : t.cursor.atLineStart = false

theorem opens_ite {p : Prop} [Decidable p] {t u : Scan} (ht : p → t.cursor.state = Style.commentBlock → l.Opens doc t)
    (hu : ¬ p → u.cursor.state = Style.commentBlock → l.Opens doc u) :
    (if p then t else u).cursor.state = Style.commentBlock → l.Opens doc (if p then t else u) := by
  split
  . next hp => exact ht hp
  . next hp => exact hu hp

theorem opens_start (hc : l.cursor.OnText doc) (hpos : l.cursor.pos ≤ doc.size) (hstate : l.cursor.state = Style.default) :
    l.start.cursor.state = Style.commentBlock → l.Opens doc l.start := by
  have hnot {t : Scan} {style : Highlight.Style} (heq : t.cursor.state = style) (hne : style ≠ Style.commentBlock)
      (hblock : t.cursor.state = Style.commentBlock) : l.Opens doc t :=
    absurd (heq.symm.trans hblock) hne
  unfold start
  dsimp only
  refine opens_ite (fun _ => ?_) fun _ => opens_ite (fun _ => ?_) fun _ => opens_ite (fun _ => ?_) fun _ =>
    opens_ite (fun hpair => ?_) fun _ => opens_ite (fun _ => ?_) fun _ => opens_ite (fun _ => ?_) fun _ =>
    opens_ite (fun _ => ?_) fun _ => opens_ite (fun _ => ?_) fun _ => opens_ite (fun _ => ?_) fun _ =>
    opens_ite (fun _ => ?_) fun _ => ?_
  . refine hnot ?_ (show Style.number ≠ _ by decide)
    unfold startNumber
    dsimp only
    split
    . exact state_forwardBy _ 2
    . split
      . exact state_forwardBy _ 2
      . exact state_forwardBy _ 1
  . exact hnot (state_forwardBy _ 3) (show Style.pragma ≠ _ by decide)
  . exact hnot (state_forwardBy _ 2) (show Style.commentLine ≠ _ by decide)
  . intro _
    have hset := hc.setState Style.commentBlock
    obtain ⟨_, _, _, hbehind⟩ := hset.pos_forward_of_seesPair hpos (by decide) (by decide) hpair
    exact
      { stands := (seesPair_opener_iff hc).mp hpair
        pos := hbehind
        extra := rfl
        inside := hset.atLineStart_forward_of_seesPair hpos (by decide) (by decide) hpair }
  . exact hnot (state_forwardBy _ 1) (show Style.string ≠ _ by decide)
  . exact hnot (state_forwardBy _ 1) (show Style.character ≠ _ by decide)
  . exact hnot (state_forwardBy _ 1) (show Style.preprocessor ≠ _ by decide)
  . exact hnot rfl (show Style.operator ≠ _ by decide)
  . exact hnot rfl (show Style.default ≠ _ by decide)
  . exact hnot (state_forwardBy _ 1) (show Style.identifier ≠ _ by decide)
  . exact hnot ((state_forwardBy _ 1).trans hstate) (by decide)

/--
No other token turns into a block comment.
-/
theorem state_leave_ne (h : s.cursor.state ≠ Style.commentBlock) (settings : Settings) :
    (s.leave settings).cursor.state ≠ Style.commentBlock := by
  have hdefault : Style.default ≠ Style.commentBlock := by decide
  have hgoes (count : Nat) : (s.cursor.forwardBy count).state ≠ Style.commentBlock := by
    rw [state_forwardBy]
    exact h
  have hquoted (quote : Code) : (leaveQuoted quote s.cursor).state ≠ Style.commentBlock := by
    unfold leaveQuoted
    split
    . exact hdefault
    . split
      . exact hgoes 2
      . split
        . exact hdefault
        . exact hgoes 1
  unfold leave
  dsimp only
  split
  . exact hdefault
  . exact hquoted _
  . exact hquoted _
  . show (leaveNumber s.memory.extra s.cursor).state ≠ _
    unfold leaveNumber
    split
    . exact hgoes 1
    . split
      . dsimp only
        split
        . exact hgoes 2
        . exact hgoes 1
      . exact hdefault
  . exact hdefault
  . unfold leaveCommentLine
    dsimp only
    split
    . split
      . show Style.operator ≠ _
        decide
      . exact h
    . split
      . exact hdefault
      . exact hgoes 1
  . next hstate => exact absurd hstate h
  . show (if _ then _ else _ : Cursor).state ≠ _
    split
    . exact hdefault
    . exact hgoes 1
  . show (leavePreprocessor settings.withinPreprocessor s.cursor).state ≠ _
    unfold leavePreprocessor
    split
    . exact hdefault
    . split
      . exact hgoes 2
      . split
        . exact hdefault
        . exact hgoes 1
  . exact h

/--
What becomes of an open block comment when it has gone on: it ends where its depth is zero.
-/
structure Deepens (doc : Document) (s l : Scan) : Prop where
  reads : ∀ q, block.Reads doc q s.cursor.pos s.memory.extra → block.Reads doc q l.cursor.pos l.memory.extra
  state : l.cursor.state = if l.memory.extra = 0 then Style.default else Style.commentBlock
  behind : l.cursor.state = Style.commentBlock → l.cursor.atLineStart = true → l.pending < l.cursor.line

section CommentBlock

variable (hc : s.cursor.OnText doc) (hpos : s.cursor.pos ≤ doc.size) (hstate : s.cursor.state = Style.commentBlock)
  (hsome : 0 < s.memory.extra)
include hc hpos hstate hsome

/--
At a closing pair a block comment is one less deep, and over when the depth is zero.
-/
theorem deepens_closeBlock (hopener : ¬ StandsAt block.opener doc s.cursor.pos) (hpair : s.cursor.seesPair '-' '\x7d' = true) :
    s.Deepens doc ((s.withCursor (if s.memory.extra - 1 == 0 then (s.cursor.forwardBy 2).setState Style.default
      else s.cursor.forwardBy 2)).withExtra (s.memory.extra - 1)) := by
  obtain ⟨_, _, _, hbehind⟩ := hc.pos_forward_of_seesPair hpos (by decide) (by decide) hpair
  have hinside : (s.cursor.forwardBy 2).atLineStart = false :=
    hc.atLineStart_forward_of_seesPair hpos (by decide) (by decide) hpair
  have hcursor (c : Cursor) : (if (s.memory.extra - 1 == 0) = true then c.setState Style.default else c).pos = c.pos := by
    split
    . rfl
    . rfl
  refine ⟨?_, ?_, ?_⟩
  . intro q hreads
    have hgoal : block.Reads doc q (s.cursor.pos + 2) (s.memory.extra - 1) := by
      refine .closes ?_ hopener ((seesPair_closer_iff hc).mp hpair)
      rwa [Nat.sub_add_cancel hsome]
    rw [← hbehind] at hgoal
    exact (hcursor (s.cursor.forwardBy 2)).symm ▸ hgoal
  . show (if (s.memory.extra - 1 == 0) = true then _ else _ : Cursor).state
      = if s.memory.extra - 1 = 0 then Style.default else Style.commentBlock
    by_cases hzero : s.memory.extra - 1 = 0
    . rw [if_pos (beq_iff_eq.mpr hzero), if_pos hzero]
      rfl
    . rw [if_neg (fun heq => hzero (beq_iff_eq.mp heq)), if_neg hzero]
      exact (state_forwardBy _ _).trans hstate
  . intro _ hstart
    have hstart : (if (s.memory.extra - 1 == 0) = true then (s.cursor.forwardBy 2).setState Style.default
        else s.cursor.forwardBy 2).atLineStart = true := hstart
    split at hstart
    . exact absurd hstart (ne_true_of_eq_false hinside)
    . exact absurd hstart (ne_true_of_eq_false hinside)

theorem deepens_leaveCommentBlock (hsingle : ∀ page, doc.encoding ≠ .doubleByte page) (hpending : s.pending = s.cursor.line) :
    s.Deepens doc s.leaveCommentBlock := by
  have hgoes (count : Nat) : (s.cursor.forwardBy count).state = Style.commentBlock := (state_forwardBy _ _).trans hstate
  unfold leaveCommentBlock
  dsimp only
  split
  . next hpair =>
    obtain ⟨_, _, _, hbehind⟩ := hc.pos_forward_of_seesPair hpos (by decide) (by decide) hpair
    have hinside : (s.cursor.forwardBy 2).atLineStart = false :=
      hc.atLineStart_forward_of_seesPair hpos (by decide) (by decide) hpair
    refine ⟨?_, (hgoes 2).trans (if_neg (Nat.succ_ne_zero _)).symm, fun _ hstart => ?_⟩
    . intro q hreads
      have hgoal : block.Reads doc q (s.cursor.pos + 2) (s.memory.extra + 1) :=
        .opens hreads ((seesPair_opener_iff hc).mp hpair)
      exact hbehind ▸ hgoal
    . exact absurd hstart (ne_true_of_eq_false hinside)
  . next hopener =>
    have hopener : ¬ StandsAt block.opener doc s.cursor.pos := fun hopens => hopener ((seesPair_opener_iff hc).mpr hopens)
    split
    . next hpair => exact deepens_closeBlock hc hpos hstate hsome hopener hpair
    . next hcloser =>
      have hmore := hc.more_iff.mpr hpos
      refine ⟨?_, (hgoes 1).trans (if_neg (Nat.ne_of_gt hsome)).symm, ?_⟩
      . intro q hreads
        show block.Reads doc q s.cursor.forward.pos s.memory.extra
        rw [pos_forward hmore, hc.settled.width_eq, hc.decodeAt_eq]
        exact hreads.skipsCharacter hsingle ascii_block hopener fun hcloses => hcloser ((seesPair_closer_iff hc).mpr hcloses)
      . intro _ hstart
        have hend : s.cursor.atLineEnd = true := (atLineStart_forward hmore).symm.trans hstart
        show s.pending < s.cursor.forward.line
        rw [line_forward hmore, hend, if_pos rfl]
        omega

end CommentBlock

/--
What a step does about block comments: none is open behind it, it opens one, or it goes on with one.
-/
inductive Nests (settings : Settings) (doc : Document) (s : Scan) : Prop where
  | outside : (s.left settings).cursor.state ≠ Style.commentBlock → (s.step settings).cursor.state ≠ Style.commentBlock
    → Nests settings doc s
  | opens : (s.left settings).cursor.state = Style.default → (s.left settings).Opens doc (s.step settings)
    → (s.step settings).cursor.state = Style.commentBlock → Nests settings doc s
  | goesOn : s.cursor.state = Style.commentBlock → s.storeLines.Deepens doc (s.step settings)
    → (s.step settings).cursor.state = Style.commentBlock → (s.left settings).cursor.state = Style.commentBlock
    → Nests settings doc s

theorem step_eq (settings : Settings) (s : Scan) : s.step settings = (s.left settings).enter :=
  rfl

theorem state_storeLines (s : Scan) : s.storeLines.cursor.state = s.cursor.state := by
  obtain ⟨_, heq, _, _⟩ := s.exists_pen_storeLines
  rw [heq]

theorem pos_storeLines (s : Scan) : s.storeLines.cursor.pos = s.cursor.pos := by
  obtain ⟨_, heq, _, _⟩ := s.exists_pen_storeLines
  rw [heq]

theorem line_storeLines (s : Scan) : s.storeLines.cursor.line = s.cursor.line := by
  obtain ⟨_, heq, _, _⟩ := s.exists_pen_storeLines
  rw [heq]

theorem atLineStart_storeLines (s : Scan) : s.storeLines.cursor.atLineStart = s.cursor.atLineStart := by
  obtain ⟨_, heq, _, _⟩ := s.exists_pen_storeLines
  rw [heq]

theorem enter_of_ne (h : l.cursor.state ≠ Style.default) : l.enter = l := by
  unfold enter
  exact if_neg fun heq => h (beq_iff_eq.mp heq)

/--
The step of a scan that is outside of a block comment when its token has ended or gone on.
-/
theorem nests_of_ne (hne : (s.left settings).cursor.state ≠ Style.commentBlock) (hc : (s.left settings).cursor.OnText doc)
    (hpos : (s.left settings).cursor.state = Style.default → (s.left settings).cursor.pos ≤ doc.size) : s.Nests settings doc := by
  by_cases hdefault : (s.left settings).cursor.state = Style.default
  . have henter : (s.left settings).enter = (s.left settings).start := by
      unfold enter
      exact if_pos (beq_iff_eq.mpr hdefault)
    by_cases hblock : (s.step settings).cursor.state = Style.commentBlock
    . refine .opens hdefault ?_ hblock
      rw [step_eq, henter] at hblock ⊢
      exact opens_start hc (hpos hdefault) hdefault hblock
    . exact .outside hne hblock
  . refine .outside hne ?_
    rw [step_eq, enter_of_ne hdefault]
    exact hne

end Scan

namespace Visits

variable (hdoc : doc.WellFormed)
include hdoc

theorem loose_whole : loose (doc.wholeLines ⟨0, doc.size, Style.default⟩).style = true := by
  rw [style_wholeLines hdoc startsLine_zero]
  rfl

theorem alike (h : Visits keywords doc s) :
    Scan.Alike (wholeOf doc) (Pen.Same (wholeOf doc) doc) s.storeLines s.storeLines := by
  have hreach := reach_wholeOf doc
  have hend := walkEnd_whole hdoc
  have hfront : (doc.wholeLines ⟨0, doc.size, Style.default⟩).start = 0 := (OnText.start hdoc Style.default).2.1
  have hlt : (doc.wholeLines ⟨0, doc.size, Style.default⟩).start < (wholeOf doc).reach := by omega
  have hbegin : Scan.Alike (wholeOf doc) (Pen.Same (wholeOf doc) doc) (.ofSpan ⟨0, doc.size, Style.default⟩ doc)
      (.ofSpan ⟨0, doc.size, Style.default⟩ doc) :=
    alike_partOf hdoc (loose_whole hdoc) (by omega) rfl hlt (Nat.le_of_eq (hreach.trans hend.symm))
      fun _ => ⟨rfl, .refl doc, Nat.le_refl _, fun _ _ => rfl, fun _ _ => rfl, fun _ _ => rfl⟩
  have hstored : (Scan.ofSpan ⟨0, doc.size, Style.default⟩ doc).storeLines = .ofSpan ⟨0, doc.size, Style.default⟩ doc :=
    Scan.storeLines_of_pending rfl
  refine h.invariant (fun s : Scan => Scan.Alike (wholeOf doc) (Pen.Same (wholeOf doc) doc) s.storeLines s.storeLines) ?_
    (by rwa [hstored])
  intro s hmore halike
  have hpos := (halike.near.onText hdoc).more_iff.mp ((s.more_storeLines).trans hmore)
  exact (halike.advance (View.closed_same rfl) (by omega) _).1

theorem more_begin : (Cursor.start doc ⟨0, doc.size, Style.default⟩).more = true := by
  obtain ⟨hbegin, hfront, _⟩ := OnText.start hdoc Style.default
  exact hbegin.more_iff.mpr (by omega)

/--
A pass comes by the end of each line.
-/
theorem exists_behindLine (keywords : Keywords) (line : Nat) : ∃ t, Visits keywords doc t ∧ t.cursor.pos = doc.behindLine line := by
  have hfront : (doc.wholeLines ⟨0, doc.size, Style.default⟩).start = 0 := (OnText.start hdoc Style.default).2.1
  rcases hdoc.startsLine_behindLine line with hstart | hend
  . have h : (pass False keywords doc.options).Forward := forward_pass keywords doc.options
    have hsize : doc.behindLine line ≤ doc.size := le_size_of_startsLine hstart
    have hreach : (partOf doc ⟨0, doc.size, Style.default⟩ (doc.behindLine line) false).reach = doc.behindLine line :=
      View.reach_of_open rfl
    have hwalk := walkEnd_whole hdoc
    have hzero := hdoc.behindLine_pos line
    have halike : (pass False keywords doc.options).alike
        (partOf doc ⟨0, doc.size, Style.default⟩ (doc.behindLine line) false) Pen.Equal
        (.ofSpan ⟨0, doc.size, Style.default⟩ doc) (.ofSpan ⟨0, doc.size, Style.default⟩ doc) :=
      ⟨alike_partOf hdoc (loose_whole hdoc) (by omega) ⟨hzero, hstart⟩ (by omega) (by omega) (fun _ => rfl), rfl⟩
    obtain ⟨u, _, hrun, _, _, hat⟩ :=
      h.exists_reach (View.closed_equal rfl) halike (good_ofSpan keywords hdoc (loose_whole hdoc) (more_begin hdoc))
    obtain ⟨t, hrun', rfl⟩ := Scan.exists_iterates hrun (Scan.storeLines_of_pending rfl)
    exact ⟨t, hrun', t.pos_storeLines.symm.trans (hat.trans hreach)⟩
  . obtain ⟨t, hends⟩ := exists_ends keywords hdoc (loose_whole hdoc)
    exact ⟨t, hends.run, hends.pos.trans ((walkEnd_whole hdoc).trans hend.symm)⟩

variable (h : Visits keywords doc s)
include h

theorem onText_storeLines : s.storeLines.cursor.OnText doc :=
  (h.alike hdoc).near.onText hdoc

theorem onText : s.cursor.OnText doc := by
  have hc := h.onText_storeLines hdoc
  obtain ⟨pen, heq, hsegment, hsame⟩ := s.exists_pen_storeLines
  rw [heq] at hc
  exact
    { source := hc.source.trans hsame.symm
      settled := hc.settled.of_pen s.cursor.pen hsame.symm (hsegment ▸ hc.settled.segment_le) s.cursor.state
      stop := hc.stop
      pos_le := hc.pos_le }

theorem onText_left (hmore : s.cursor.more = true) : (s.left (.read keywords doc.options)).cursor.OnText doc
    ∧ ((s.left (.read keywords doc.options)).cursor.state = Style.default →
      (s.left (.read keywords doc.options)).cursor.pos ≤ doc.size) := by
  have hreach := reach_wholeOf doc
  have hpos := (h.onText_storeLines hdoc).more_iff.mp ((s.more_storeLines).trans hmore)
  have hleft := (h.alike hdoc).near.leave (View.closed_same rfl) (by omega) (.read keywords doc.options)
  refine ⟨hleft.went.near.onText hdoc, fun hdefault => ?_⟩
  have hlt : (s.left (.read keywords doc.options)).cursor.pos < (wholeOf doc).reach := hleft.lt_reach hdefault
  omega

/--
An open block comment goes on or ends.
-/
theorem deepens (hsingle : ∀ page, doc.encoding ≠ .doubleByte page) (hmore : s.cursor.more = true)
    (hstate : s.cursor.state = Style.commentBlock) (hsome : 0 < s.memory.extra) :
    s.storeLines.Deepens doc (s.left (.read keywords doc.options)) := by
  have hc := h.onText_storeLines hdoc
  have hpos := hc.more_iff.mp ((s.more_storeLines).trans hmore)
  have hstate : s.storeLines.cursor.state = Style.commentBlock := s.state_storeLines.trans hstate
  have hleft : s.left (.read keywords doc.options) = s.storeLines.leaveCommentBlock := by
    unfold Scan.left Scan.leave
    dsimp only
    rw [hstate]
    rfl
  rw [hleft]
  exact Scan.deepens_leaveCommentBlock hc hpos hstate hsome hsingle (h.alike hdoc).pending

theorem nests (hsingle : ∀ page, doc.encoding ≠ .doubleByte page) (hmore : s.cursor.more = true)
    (hsome : s.cursor.state = Style.commentBlock → 0 < s.memory.extra) : s.Nests (.read keywords doc.options) doc := by
  obtain ⟨hc, hpos⟩ := h.onText_left hdoc hmore
  by_cases hstate : s.cursor.state = Style.commentBlock
  . have hdeepens := h.deepens hdoc hsingle hmore hstate (hsome hstate)
    by_cases hzero : (s.left (.read keywords doc.options)).memory.extra = 0
    . refine Scan.nests_of_ne ?_ hc hpos
      rw [hdeepens.state, if_pos hzero]
      decide
    . have hleft := hdeepens.state.trans (if_neg hzero)
      have hstep : s.step (.read keywords doc.options) = s.left (.read keywords doc.options) :=
        (Scan.step_eq _ s).trans (Scan.enter_of_ne (by rw [hleft]; decide))
      refine .goesOn hstate ?_ ?_ hleft
      . rwa [hstep]
      . rwa [hstep]
  . exact Scan.nests_of_ne (Scan.state_leave_ne (fun heq => hstate (s.state_storeLines.symm.trans heq)) _) hc hpos

omit h in
/--
In a block comment, the depth is not zero, and a line that has just been left has no state yet.
-/
theorem deep (h : Visits keywords doc s) (hsingle : ∀ page, doc.encoding ≠ .doubleByte page) (hstate : s.cursor.state = Style.commentBlock) :
    0 < s.memory.extra ∧ (s.cursor.atLineStart = true → s.pending < s.cursor.line) := by
  have hkept := h.invariant (fun s : Scan => Visits keywords doc s ∧ (s.cursor.state = Style.commentBlock →
    0 < s.memory.extra ∧ (s.cursor.atLineStart = true → s.pending < s.cursor.line))) ?_ ⟨.refl _, ?_⟩
  . exact hkept.2 hstate
  . intro s hmore ⟨hvisits, hdeep⟩
    refine ⟨hvisits.tail hmore, fun hblock => ?_⟩
    cases hvisits.nests hdoc hsingle hmore (fun hstate => (hdeep hstate).1) with
    | outside _ hother => exact absurd hblock hother
    | opens _ hopens _ =>
      refine ⟨?_, fun hstart => absurd hstart (ne_true_of_eq_false hopens.inside)⟩
      rw [hopens.extra]
      exact Nat.one_pos
    | goesOn _ hdeepens _ _ =>
      refine ⟨Nat.pos_of_ne_zero fun hzero => ?_, hdeepens.behind hblock⟩
      have := hblock.symm.trans (hdeepens.state.trans (if_pos hzero))
      exact absurd this (by decide)
  . intro hblock
    have hdefault : (Scan.ofSpan ⟨0, doc.size, Style.default⟩ doc).cursor.state = Style.default :=
      (OnText.start hdoc Style.default).2.2.2
    exact absurd (hdefault.symm.trans hblock) (by decide)

end Visits

section Depth

variable (hdoc : doc.WellFormed) (hsingle : ∀ page, doc.encoding ≠ .doubleByte page)
include hdoc hsingle

/--
In a block comment, the depth is what has been read since it was opened.
-/
theorem InBlock.reads (h : InBlock keywords doc q s) :
    Visits keywords doc s ∧ s.cursor.state = Style.commentBlock ∧ block.Reads doc q s.cursor.pos s.memory.extra := by
  have hnests {s : Scan} (hvisits : Visits keywords doc s) (hmore : s.cursor.more = true) :
      s.Nests (.read keywords doc.options) doc :=
    hvisits.nests hdoc hsingle hmore fun hstate => (hvisits.deep hdoc hsingle hstate).1
  induction h with
  | @opens s hvisits hmore hdefault hq _ hblock =>
    refine ⟨hvisits.tail hmore, hblock, ?_⟩
    cases hnests hvisits hmore with
    | outside _ hother => exact absurd hblock hother
    | opens _ hopens _ =>
      rw [hopens.pos, hopens.extra, ← hq]
      exact .opens .refl hopens.stands
    | goesOn _ _ _ hleft => exact absurd (hdefault.symm.trans hleft) (by decide)
  | @goesOn s _ hmore hleft ih =>
    obtain ⟨hvisits, hstate, hreads⟩ := ih
    refine ⟨hvisits.tail hmore, ?_⟩
    cases hnests hvisits hmore with
    | outside hother _ => exact absurd hleft hother
    | opens hdefault _ _ => exact absurd (hleft.symm.trans hdefault) (by decide)
    | goesOn _ hdeepens hblock _ =>
      refine ⟨hblock, hdeepens.reads q ?_⟩
      rw [s.pos_storeLines]
      exact hreads

/--
Where the state is that of a block comment, one has been opened.
-/
theorem Visits.exists_inBlock (h : Visits keywords doc s) (hstate : s.cursor.state = Style.commentBlock) :
    ∃ q, InBlock keywords doc q s := by
  have hkept := h.invariant (fun s : Scan => Visits keywords doc s ∧ (s.cursor.state = Style.commentBlock →
    ∃ q, InBlock keywords doc q s)) ?_ ⟨.refl _, ?_⟩
  . exact hkept.2 hstate
  . intro s hmore ⟨hvisits, hopened⟩
    refine ⟨hvisits.tail hmore, fun hblock => ?_⟩
    cases hvisits.nests hdoc hsingle hmore fun hstate => (hvisits.deep hdoc hsingle hstate).1 with
    | outside _ hother => exact absurd hblock hother
    | opens hdefault hopens _ => exact ⟨_, .opens hvisits hmore hdefault rfl hopens.stands hblock⟩
    | goesOn hstate _ _ hleft =>
      obtain ⟨q, hin⟩ := hopened hstate
      exact ⟨q, .goesOn hin hmore hleft⟩
  . intro hblock
    have hdefault : (Scan.ofSpan ⟨0, doc.size, Style.default⟩ doc).cursor.state = Style.default :=
      (OnText.start hdoc Style.default).2.2.2
    exact absurd (hdefault.symm.trans hblock) (by decide)

/--
A block comment takes two bytes for each level.
-/
theorem Visits.two_mul_extra_le (h : Visits keywords doc s) (hstate : s.cursor.state = Style.commentBlock) :
    2 * s.memory.extra ≤ doc.size := by
  obtain ⟨q, hq⟩ := h.exists_inBlock hdoc hsingle hstate
  exact (hq.reads hdoc hsingle).2.2.two_mul_le_size

/--
A line that ends in a block comment gets the depth there.
-/
theorem Visits.lineState_colour (h : Visits keywords doc t) (hstate : t.cursor.state = Style.commentBlock) {line : Nat}
    (hline : line < doc.lineCount) (hpos : t.cursor.pos = doc.behindLine line) :
    (colour keywords ⟨0, doc.size, Style.default⟩ doc).lineState line = t.memory.pack := by
  have hforward : (pass False keywords doc.options).Forward := forward_pass keywords doc.options
  have hc := h.onText hdoc
  obtain ⟨hat, hstart, _⟩ := hc.line_of_behindLine hdoc hline hpos
  have hpending := (h.deep hdoc hsingle hstate).2 hstart
  have hgood := good_ofSpan keywords hdoc (Visits.loose_whole hdoc) (Visits.more_begin hdoc)
  have hrun := Scan.iterates_storeLines h
  rw [Scan.storeLines_of_pending rfl] at hrun
  have hgood' := hforward.good_of_iterates hrun hgood
  obtain ⟨u, hrest, hend⟩ := hforward.ends hgood'
  have hlineStart : t.storeLines.cursor.atLineStart = true := t.atLineStart_storeLines.trans hstart
  have hloose : loose t.storeLines.cursor.state = true := by
    rw [t.state_storeLines, hstate]
    rfl
  have hbehind := (hforward.finish_behind hgood' hlineStart hloose ⟨hrest, hend⟩).2 line (by
    show line < t.storeLines.cursor.line
    rw [t.line_storeLines]
    omega)
  have hstored : t.storeLines.cursor.doc.lineState line = t.memory.pack := by
    refine lineState_foldl t.memory.pack hc.settled.wellFormed ?_ (by omega) (by omega)
    rw [hc.source.lineCount]
    omega
  rw [colour_eq_complete rfl hgood ⟨hrun.trans hrest, hend⟩, ← hstored]
  exact congrArg (·.getD 0) (hbehind.trans (Colouring.Forward.lineStates_finish _ line))

end Depth

end Highlight.Haskell
