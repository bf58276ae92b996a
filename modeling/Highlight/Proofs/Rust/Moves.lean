import Highlight.Proofs.Cursor.Moves
import Highlight.Proofs.Iteration
import Highlight.Rust

/-!
What a step of Rust can do, in a pass over all of a text. It ends the open token, goes on with it or gives it another style,
and then it may start a token. Only a nested comment changes the depth, and only a documentation comment, or one of its
keywords, leads to a keyword.
-/

namespace Highlight.Rust

open Cursor LineIndex

variable {doc : Document} {keywords : Keywords} {kind : Style → Bool} {stores : Prop} {c : Cursor} {s t : Scan}

namespace Scan

/--
The scan with the depth stored for a line that starts at the cursor.
-/
def storing (s : Scan) : Scan :=
  if s.cursor.atLineStart then s.storeNesting else s

/--
The scan within a step, when the open token has ended or gone on.
-/
def left (keywords : Keywords) (s : Scan) : Scan :=
  s.storing.leave keywords

theorem step_eq (keywords : Keywords) (s : Scan) :
    s.step keywords = (s.left keywords).enter.withCursor (s.left keywords).enter.cursor.forward :=
  rfl

/--
The scan behind the two characters that open a nested comment.
-/
def openNested (s : Scan) : Scan :=
  let s := { s with nesting := s.nesting + 1 }.storeNesting
  s.withCursor (s.cursor.setState Style.commentNested).forward

/--
From `s` to `t`, the depth and the stored ones stay.
-/
structure Keeps (s t : Scan) : Prop where
  moves : Moves isStreamComment False s.cursor t.cursor
  nesting : t.nesting = s.nesting

/--
What becomes of the open token. A documentation keyword only goes on with its own characters.
-/
inductive Leaves (s t : Scan) : Prop where
  | ends : s.Keeps t → s.cursor.state ≠ Style.commentNested → t.cursor.state = Style.default → Leaves s t
  | goesOn : s.Keeps t → s.cursor.state ≠ Style.commentNested → t.cursor.state = s.cursor.state
    → (s.cursor.state = Style.docKeyword → t = s ∧ isDocWord s.cursor.cur = true) → Leaves s t
  | unclosed : s.Keeps t → s.cursor.state = Style.character → t.cursor.state = Style.characterUnclosed → Leaves s t
  | keyword : s.Keeps t → s.cursor.state = Style.commentDoc ∨ s.cursor.state = Style.commentLineDoc
    → t.docComment = s.cursor.state → t.cursor = s.cursor.setState Style.docKeyword → s.cursor.cur.isInner = true → Leaves s t
  | keywordEnds : s.Keeps t → s.cursor.state = Style.docKeyword → t.cursor.state = s.docComment → Leaves s t
  | nested : s.cursor.state = Style.commentNested → t = s.leaveNested → Leaves s t

/--
What starts at the cursor: a nested comment, or, maybe, any other token but a documentation keyword.
-/
inductive Starts (s t : Scan) : Prop where
  | nested : s.cursor.seesPair '/' '+' = true → t = s.openNested → Starts s t
  | token : s.Keeps t → t.cursor.state ≠ Style.commentNested → t.cursor.state ≠ Style.docKeyword
    → t.cursor.state ≠ Style.docKeywordError → Starts s t

section Tokens

variable (hc : c.OnText doc) (hpos : c.pos ≤ doc.size)
include hc hpos

theorem isInner_forward (hnext : c.next.isInner = true) : c.forward.cur.isInner = true := by
  rw [cur_forward (hc.more_iff.mpr hpos)]
  exact hnext

theorem moves_closePair {x y : Char} (hx : Code.isInner x.toNat = true) (hy : Code.isInner y.toNat = true)
    (hpair : c.seesPair x y = true) : Moves kind stores c c.forward.forward :=
  .forward (.forward .refl (isInner_of_seesPair hx hpair)) (isInner_forward hc hpos (Code.isInner_of_is hy (next_of_seesPair hpair)))

theorem moves_closeComment (hpair : c.seesPair '*' '/' = true) : Moves kind stores c (closeComment c) :=
  .setState (moves_closePair hc hpos (by decide) (by decide) hpair) _

theorem moves_closeString (hcur : c.cur.isInner = true) : Moves kind stores c (closeString c) := by
  unfold closeString
  split
  . next hsuffix =>
    exact .setState (.forward (.forward .refl hcur) (isInner_forward hc hpos (Code.isInner_of_isOneOf (by decide) hsuffix))) _
  . exact .setState (.forward .refl hcur) _

end Tokens

theorem Keeps.of_moves {c : Cursor} (h : Moves isStreamComment False s.cursor c) : s.Keeps (s.withCursor c) :=
  ⟨h, rfl⟩

theorem Leaves.ite {p : Prop} [Decidable p] {u : Scan} (ht : p → s.Leaves t) (hu : ¬ p → s.Leaves u) :
    s.Leaves (if p then t else u) := by
  split
  . next hp => exact ht hp
  . next hp => exact hu hp

/--
A token that is no keyword can go on.
-/
theorem Leaves.stay {style : Style} (hstate : s.cursor.state = style) (hnested : style ≠ Style.commentNested)
    (hkeyword : style ≠ Style.docKeyword) : s.Leaves s :=
  .goesOn ⟨.refl, rfl⟩ (hstate ▸ hnested) rfl (fun hdoc => absurd (hstate.symm.trans hdoc) hkeyword)

section Leave

variable (hc : s.cursor.OnText doc) (hpos : s.cursor.pos ≤ doc.size)

theorem leaves_leaveNumber (hstate : s.cursor.state = Style.number) : s.Leaves s.leaveNumber := by
  have hnested : s.cursor.state ≠ Style.commentNested := by
    rw [hstate]
    decide
  have hkeyword {p : Prop} (hdoc : s.cursor.state = Style.docKeyword) : p := by
    rw [hstate] at hdoc
    cases hdoc
  unfold leaveNumber
  dsimp only
  refine .ite (fun _ => ?_) fun _ => .ite (fun _ => ?_) fun _ => .ite (fun _ => ?_) fun _ => ?_
  . exact .goesOn ⟨.refl, rfl⟩ hnested rfl hkeyword
  . exact .goesOn ⟨.refl, rfl⟩ hnested rfl hkeyword
  . exact .goesOn ⟨.refl, rfl⟩ hnested rfl hkeyword
  . exact .ends (.of_moves (.setState .refl _)) hnested rfl

theorem isStreamComment_wordStyle (keywords : Keywords) (word : String) : isStreamComment (wordStyle keywords word) = false := by
  unfold wordStyle
  split
  . rfl
  . split
    . rfl
    . split
      . rfl
      . rfl

theorem leaves_leaveIdentifier (hstate : s.cursor.state = Style.identifier) :
    s.Leaves (s.withCursor (leaveIdentifier keywords s.cursor)) := by
  unfold leaveIdentifier
  split
  . exact .stay hstate (by decide) (by decide)
  . have hkind : isStreamComment (wordStyle keywords (s.cursor.token 1000)) = isStreamComment s.cursor.state := by
      rw [isStreamComment_wordStyle, hstate]
      rfl
    exact .ends (.of_moves (.setState (.changeState .refl _ hkind) _)) (by rw [hstate]; decide) rfl

theorem isInner_of_startsDocKeyword {openers : String} (h : startsDocKeyword openers c = true) : c.cur.isInner = true := by
  rw [startsDocKeyword, Bool.and_eq_true, Bool.and_eq_true, Bool.or_eq_true] at h
  exact h.1.1.elim (isInner_of_sees (by decide)) (Code.isInner_of_eq (by decide))

theorem leaves_leaveLine {style : Style} (hstate : s.cursor.state = style) (hnested : style ≠ Style.commentNested)
    (hkeyword : style ≠ Style.docKeyword) : s.Leaves (s.withCursor (leaveLine s.cursor)) := by
  unfold leaveLine
  split
  . exact .ends (.of_moves (.setState .refl _)) (hstate ▸ hnested) rfl
  . exact .stay hstate hnested hkeyword

include hc hpos

theorem leaves_leaveDocKeyword (hstate : s.cursor.state = Style.docKeyword) : s.Leaves (s.leaveDocKeyword keywords) := by
  have hnested : s.cursor.state ≠ Style.commentNested := by
    rw [hstate]
    decide
  have herror : Moves isStreamComment False s.cursor (s.cursor.changeState Style.docKeywordError) :=
    .changeState .refl _ (by rw [hstate]; rfl)
  unfold leaveDocKeyword
  dsimp only
  split
  . next hclose =>
    rw [Bool.and_eq_true] at hclose
    refine .ends (.of_moves (herror.trans ?_)) hnested rfl
    exact moves_closeComment (hc.changeState _) hpos hclose.2
  . split
    . next hword => exact .goesOn ⟨.refl, rfl⟩ hnested rfl (fun _ => ⟨rfl, hword⟩)
    . split
      . exact .keywordEnds (.of_moves (.setState .refl _)) hstate rfl
      . exact .keywordEnds (.of_moves (.setState herror _)) hstate rfl

theorem leaves_leaveString (hstate : s.cursor.state = Style.string) : s.Leaves (s.withCursor (leaveString s.cursor)) := by
  have hnested : s.cursor.state ≠ Style.commentNested := by
    rw [hstate]
    decide
  unfold leaveString
  split
  . next hbackslash =>
    have hcur : s.cursor.cur.isInner = true := Code.isInner_of_eq (by decide) hbackslash
    split
    . refine .goesOn (.of_moves (.forward .refl hcur)) hnested (state_forward (hc.more_iff.mpr hpos)) ?_
      intro hdoc
      rw [hstate] at hdoc
      cases hdoc
    . exact .stay hstate (by decide) (by decide)
  . split
    . next hquote =>
      exact .ends (.of_moves (moves_closeString hc hpos (Code.isInner_of_eq (by decide) hquote))) hnested rfl
    . exact .stay hstate (by decide) (by decide)

theorem leaves_leaveCharacter (hstate : s.cursor.state = Style.character) :
    s.Leaves (s.withCursor (leaveCharacter s.cursor)) := by
  have hnested : s.cursor.state ≠ Style.commentNested := by
    rw [hstate]
    decide
  unfold leaveCharacter
  split
  . exact .unclosed (.of_moves (.changeState .refl _ (by rw [hstate]; rfl))) hstate rfl
  . split
    . next hbackslash =>
      have hcur : s.cursor.cur.isInner = true := Code.isInner_of_eq (by decide) hbackslash
      split
      . refine .goesOn (.of_moves (.forward .refl hcur)) hnested (state_forward (hc.more_iff.mpr hpos)) ?_
        intro hdoc
        rw [hstate] at hdoc
        cases hdoc
      . exact .stay hstate (by decide) (by decide)
    . split
      . next hquote =>
        exact .ends (.of_moves (.setState (.forward .refl (Code.isInner_of_eq (by decide) hquote)) _)) hnested rfl
      . exact .stay hstate (by decide) (by decide)

/--
The open token ends, goes on, or gets another style.
-/
theorem leaves_leave (keywords : Keywords) : s.Leaves (s.leave keywords) := by
  have hclose {quote : Code} (hquote : Code.isInner quote = true) (hcur : (s.cursor.cur == quote) = true) :
      s.Keeps (s.withCursor (closeString s.cursor)) :=
    .of_moves (moves_closeString hc hpos (Code.isInner_of_eq hquote hcur))
  unfold leave
  dsimp only
  split
  . next hstate => exact .ends (.of_moves (.setState .refl _)) (by rw [hstate]; decide) rfl
  . next hstate => exact leaves_leaveNumber hstate
  . next hstate => exact leaves_leaveIdentifier hstate
  . next hstate =>
    split
    . next hpair => exact .ends (.of_moves (moves_closeComment hc hpos hpair)) (by rw [hstate]; decide) rfl
    . exact .stay hstate (by decide) (by decide)
  . next hstate =>
    split
    . next hpair => exact .ends (.of_moves (moves_closeComment hc hpos hpair)) (by rw [hstate]; decide) rfl
    . split
      . next hstarts =>
        exact .keyword ⟨.setState .refl _, rfl⟩ (.inl hstate) hstate.symm rfl (isInner_of_startsDocKeyword hstarts)
      . exact .stay hstate (by decide) (by decide)
  . next hstate => exact leaves_leaveLine hstate (by decide) (by decide)
  . next hstate =>
    split
    . exact .ends (.of_moves (.setState .refl _)) (by rw [hstate]; decide) rfl
    . split
      . next hstarts =>
        exact .keyword ⟨.setState .refl _, rfl⟩ (.inr hstate) hstate.symm rfl (isInner_of_startsDocKeyword hstarts)
      . exact .stay hstate (by decide) (by decide)
  . next hstate => exact leaves_leaveDocKeyword hc hpos hstate
  . next hstate => exact .nested hstate rfl
  . next hstate => exact leaves_leaveString hc hpos hstate
  . next hstate => exact leaves_leaveCharacter hc hpos hstate
  . next hstate => exact leaves_leaveLine hstate (by decide) (by decide)
  . next hstate =>
    split
    . next hquote => exact .ends (hclose (by decide) hquote) (by rw [hstate]; decide) rfl
    . exact .stay hstate (by decide) (by decide)
  . next hstate =>
    split
    . next hquote => exact .ends (hclose (by decide) hquote) (by rw [hstate]; decide) rfl
    . exact .stay hstate (by decide) (by decide)
  . next _ _ _ _ _ _ _ hkeyword hnested _ _ _ _ _ => exact .stay rfl hnested hkeyword

end Leave

theorem Starts.ite {p : Prop} [Decidable p] {u : Scan} (ht : p → s.Starts t) (hu : ¬ p → s.Starts u) :
    s.Starts (if p then t else u) := by
  split
  . next hp => exact ht hp
  . next hp => exact hu hp

/--
The styles that tokens start with.
-/
theorem Starts.of_style {style : Style} {u : Scan} (hkeeps : s.Keeps u) (hstate : u.cursor.state = style)
    (hstyle : (style == Style.commentNested || style == Style.docKeyword || style == Style.docKeywordError) = false) :
    s.Starts u := by
  subst hstate
  simp only [Bool.or_eq_false_iff, beq_eq_false_iff_ne] at hstyle
  exact .token hkeeps hstyle.1.1 hstyle.1.2 hstyle.2

theorem starts_start (hc : s.cursor.OnText doc) (hpos : s.cursor.pos ≤ doc.size) (hstate : s.cursor.state = Style.default) :
    s.Starts s.start := by
  have hmore (style : Style) : (s.cursor.setState style).more = true := (hc.setState style).more_iff.mpr hpos
  have hforward {style : Style} (hcur : s.cursor.cur.isInner = true) :
      s.Keeps (s.withCursor (s.cursor.setState style).forward) :=
    .of_moves (.forward (.setState .refl style) hcur)
  unfold start
  dsimp only
  refine .ite (fun _ => ?_) fun _ => .ite (fun hquote => ?_) fun _ => .ite (fun _ => ?_) fun _ => .ite (fun hpair => ?_) fun _ =>
    .ite (fun hpair => ?_) fun _ => .ite (fun _ => ?_) fun _ => .ite (fun _ => ?_) fun _ => .ite (fun _ => ?_) fun _ =>
    .ite (fun _ => ?_) fun _ => .ite (fun hoperator => ?_) fun _ => ?_
  . exact .of_style ⟨.setState .refl _, rfl⟩ (show _ = Style.number from rfl) rfl
  . rw [Bool.and_eq_true] at hquote
    exact .of_style (hforward (Code.isInner_of_isOneOf (by decide) hquote.1)) (state_forward (hmore Style.rawString)) rfl
  . exact .of_style (.of_moves (.setState .refl _)) (show _ = Style.identifier from rfl) rfl
  . exact .nested hpair rfl
  . refine .of_style (hforward (isInner_of_seesPair (by decide) hpair)) (state_forward (hmore _)) ?_
    split
    . rfl
    . rfl
  . refine .of_style (.of_moves (.setState .refl _)) rfl ?_
    split
    . rfl
    . rfl
  . exact .of_style (.of_moves (.setState .refl _)) (show _ = Style.string from rfl) rfl
  . exact .of_style (.of_moves (.setState .refl _)) (show _ = Style.character from rfl) rfl
  . exact .of_style (.of_moves (.setState .refl _)) (show _ = Style.backtickString from rfl) rfl
  . have hcur : s.cursor.cur.isInner = true := Code.isInner_of_isOneOf (by decide) hoperator
    split
    . exact .of_style (hforward hcur) (state_forward (hmore Style.operator)) rfl
    . exact .of_style (.of_moves (.setState .refl _)) (show _ = Style.operator from rfl) rfl
  . exact .of_style ⟨.refl, rfl⟩ hstate rfl

section Turn

variable (hc : s.cursor.OnText doc) (hpos : s.cursor.pos ≤ doc.size)

theorem moves_storing (s : Scan) : Moves kind True s.cursor s.storing.cursor := by
  unfold storing
  split
  . exact .setLineState .refl trivial _
  . exact .refl

include hc hpos

theorem moves_leaveNested : Moves kind True s.cursor s.leaveNested.cursor := by
  have hplus : Code.isInner '+'.toNat = true := by decide
  have hslash : Code.isInner '/'.toNat = true := by decide
  unfold leaveNested
  split
  . next hpair =>
    have hstored := hc.setLineState s.cursor.line (Nesting.pack (s.nesting - 1))
    have hstores : Moves kind True s.cursor (s.cursor.setLineState s.cursor.line (Nesting.pack (s.nesting - 1))) :=
      .setLineState .refl trivial _
    show Moves kind True s.cursor (if (s.nesting - 1 == 0) = true then _ else _)
    split
    . exact hstores.trans (.setState (moves_closePair hstored hpos hplus hslash hpair) _)
    . exact .forward hstores (isInner_of_seesPair hplus hpair)
  . split
    . next hpair => exact .forward (.setLineState .refl trivial _) (isInner_of_seesPair hslash hpair)
    . exact .refl

omit hpos hc in
theorem moves_openNested (hpair : s.cursor.seesPair '/' '+' = true) : Moves kind True s.cursor s.openNested.cursor :=
  .forward (.setState (.setLineState .refl trivial _) _) (isInner_of_seesPair (by decide) hpair)

theorem moves_leave (keywords : Keywords) : Moves isStreamComment True s.cursor (s.leave keywords).cursor := by
  cases leaves_leave hc hpos keywords with
  | ends hkeeps _ _ => exact hkeeps.moves.of_not
  | goesOn hkeeps _ _ _ => exact hkeeps.moves.of_not
  | unclosed hkeeps _ _ => exact hkeeps.moves.of_not
  | keyword hkeeps _ _ _ _ => exact hkeeps.moves.of_not
  | keywordEnds hkeeps _ _ => exact hkeeps.moves.of_not
  | nested _ heq =>
    rw [heq]
    exact moves_leaveNested hc hpos

theorem moves_enter : Moves isStreamComment True s.cursor s.enter.cursor := by
  unfold enter
  split
  . next hstate =>
    cases starts_start hc hpos (beq_iff_eq.mp hstate) with
    | nested hpair heq =>
      rw [heq]
      exact moves_openNested hpair
    | token hkeeps _ _ _ => exact hkeeps.moves.of_not
  . exact .refl

theorem moves_left (keywords : Keywords) : Moves isStreamComment True s.cursor (s.left keywords).cursor := by
  have hstoring : Moves isStreamComment True s.cursor s.storing.cursor := moves_storing s
  obtain ⟨hc', _, hpos', _⟩ := hstoring.onText hc hpos
  exact hstoring.trans (moves_leave hc' hpos' keywords)

theorem moves_turn (keywords : Keywords) : Moves isStreamComment True s.cursor (s.left keywords).enter.cursor := by
  have hleft := moves_left hc hpos keywords
  obtain ⟨hc', _, hpos', _⟩ := hleft.onText hc hpos
  exact hleft.trans (moves_enter hc' hpos')

/--
A step goes on, and not over a line start.
-/
theorem pos_step (keywords : Keywords) : s.cursor.pos < (s.step keywords).cursor.pos
    ∧ ∀ q, startsLine doc.text q = true ∨ q = doc.size + 1 → s.cursor.pos < q → (s.step keywords).cursor.pos ≤ q := by
  have hturn := moves_turn hc hpos keywords
  obtain ⟨hc', hle, hpos', _⟩ := hturn.onText hc hpos
  have hwidth := hc'.settled.width_pos
  have hforward : (s.step keywords).cursor.pos = (s.left keywords).enter.cursor.pos + (s.left keywords).enter.cursor.width :=
    pos_forward (hc'.more_iff.mpr hpos')
  rw [hforward]
  refine ⟨by omega, ?_⟩
  intro q hq hlt
  have hin : IsBoundary (s.left keywords).enter.cursor.doc.text q ∨ q = (s.left keywords).enter.cursor.doc.size + 1 := by
    rw [hc'.source.text, hc'.size_eq]
    exact hq.imp_left .inl
  refine hc'.settled.pos_add_width_le_of_lt hin ?_
  rcases hq with hstart | hend
  . exact hturn.pos_lt hc hpos hstart hlt
  . omega

theorem covers_step {known : Bool} {i : Nat} (hi : i < doc.size) (h : s.cursor.Covers isStreamComment known i) (keywords : Keywords) :
    (s.step keywords).cursor.Covers isStreamComment known i := by
  have hturn := moves_turn hc hpos keywords
  obtain ⟨hc', _, hpos', _⟩ := hturn.onText hc hpos
  exact (h.moves hc hpos hi hturn).forward (hc'.more_iff.mpr hpos')

/--
Only the current line gets a state.
-/
theorem lineState_step (keywords : Keywords) : s.cursor.line ≤ (s.step keywords).cursor.line
    ∧ ∀ line, line ≠ s.cursor.line → (s.step keywords).cursor.doc.lineState line = s.cursor.doc.lineState line := by
  have hturn := moves_turn hc hpos keywords
  obtain ⟨hc', _, hpos', hline⟩ := hturn.onText hc hpos
  constructor
  . rw [step_eq, show ∀ c, ((s.left keywords).enter.withCursor c).cursor = c from fun _ => rfl,
      line_forward (hc'.more_iff.mpr hpos'), ← hline]
    split <;> omega
  . intro line hne
    rw [step_eq, show ∀ c, ((s.left keywords).enter.withCursor c).cursor = c from fun _ => rfl, doc_forward]
    exact hturn.lineState_of_ne hc hpos hne

end Turn

/--
What is so with a scan between two steps of a pass over all of a text. A documentation keyword is open only right behind a
character of the line, and goes back to a documentation comment.
-/
structure Sound (doc : Document) (s : Scan) : Prop where
  onText : s.cursor.OnText doc
  segment_lt : 0 < s.cursor.pos → s.cursor.pen.segment < s.cursor.pos
  keyword : s.cursor.state = Style.docKeyword → (s.docComment = Style.commentDoc ∨ s.docComment = Style.commentLineDoc)
    ∧ 0 < s.cursor.pos ∧ Code.isInner (doc.byteAt (s.cursor.pos - 1) 0).toNat = true
  not_error : s.cursor.state ≠ Style.docKeywordError

theorem sound_begin (hdoc : doc.WellFormed) : (ofSpan ⟨0, doc.size, Style.default⟩ doc).Sound doc := by
  obtain ⟨hc, hpos, _, hstate⟩ := OnText.start hdoc Style.default
  have hpos : (ofSpan ⟨0, doc.size, Style.default⟩ doc).cursor.pos = 0 := hpos
  have hstate : (ofSpan ⟨0, doc.size, Style.default⟩ doc).cursor.state = Style.default := hstate
  refine ⟨hc, ?_, ?_, ?_⟩
  . rw [hpos]
    exact fun hlt => absurd hlt (Nat.lt_irrefl 0)
  . rw [hstate]
    exact nofun
  . rw [hstate]
    decide

/--
What is so with it within a step. A documentation keyword is open only at one of its characters.
-/
structure Steady (doc : Document) (s : Scan) : Prop where
  onText : s.cursor.OnText doc
  pos_le : s.cursor.pos ≤ doc.size
  keyword : s.cursor.state = Style.docKeyword →
    (s.docComment = Style.commentDoc ∨ s.docComment = Style.commentLineDoc) ∧ s.cursor.cur.isInner = true
  not_error : s.cursor.state ≠ Style.docKeywordError

theorem storing_eq (s : Scan) : s.storing = s ∨ s.storing = s.storeNesting := by
  unfold storing
  split
  . exact .inr rfl
  . exact .inl rfl

theorem state_storing (s : Scan) : s.storing.cursor.state = s.cursor.state := by
  rcases s.storing_eq with h | h
  . rw [h]
  . rw [h]
    rfl

theorem docComment_storing (s : Scan) : s.storing.docComment = s.docComment := by
  rcases s.storing_eq with h | h
  . rw [h]
  . rw [h]
    rfl

theorem state_leaveNested (hstate : s.cursor.state = Style.commentNested) :
    s.leaveNested.cursor.state = Style.default ∨ s.leaveNested.cursor.state = Style.commentNested := by
  have hforward (c : Cursor) : c.forward.state = c.state := c.state_forwardBy 1
  unfold leaveNested
  split
  . show (if (s.nesting - 1 == 0) = true then _ else _ : Cursor).state = _
      ∨ (if (s.nesting - 1 == 0) = true then _ else _ : Cursor).state = _
    split
    . exact .inl rfl
    . exact .inr ((hforward _).trans hstate)
  . split
    . exact .inr ((hforward _).trans hstate)
    . exact .inr hstate

theorem Sound.left (h : s.Sound doc) (hpos : s.cursor.pos ≤ doc.size) (keywords : Keywords) : (s.left keywords).Steady doc := by
  obtain ⟨hc, _, hpos', _⟩ := (moves_left h.onText hpos keywords).onText h.onText hpos
  obtain ⟨hr, _, hposr, _⟩ := (@moves_storing isStreamComment s).onText h.onText hpos
  have hstate := s.state_storing
  have hkeyword (hdoc : s.storing.cursor.state = Style.docKeyword) :
      s.storing.docComment = Style.commentDoc ∨ s.storing.docComment = Style.commentLineDoc := by
    rw [s.docComment_storing]
    exact (h.keyword (hstate.symm.trans hdoc)).1
  have herror : s.storing.cursor.state ≠ Style.docKeywordError := by
    rw [hstate]
    exact h.not_error
  have hother {style : Highlight.Style} (heq : (s.left keywords).cursor.state = style)
      (hstyle : style ≠ Style.docKeyword ∧ style ≠ Style.docKeywordError) : (s.left keywords).Steady doc :=
    ⟨hc, hpos', fun hdoc => absurd (heq.symm.trans hdoc) hstyle.1, by rw [heq]; exact hstyle.2⟩
  cases leaves_leave hr hposr keywords with
  | ends _ _ heq => exact hother heq (by decide)
  | goesOn _ _ heq hgoes =>
    refine ⟨hc, hpos', ?_, ?_⟩
    . intro hdoc
      have hdoc' := heq.symm.trans hdoc
      obtain ⟨hsame, hword⟩ := hgoes hdoc'
      have hsame : s.left keywords = s.storing := hsame
      rw [hsame]
      refine ⟨hkeyword hdoc', ?_⟩
      rw [isDocWord, Bool.or_eq_true] at hword
      exact hword.elim Code.isInner_of_isLower (Code.isInner_of_isOneOf (by decide))
    . exact fun hdoc => herror (heq.symm.trans hdoc)
  | unclosed _ _ heq => exact hother heq (by decide)
  | keyword _ hcomment hdoc hcursor hcur =>
    have hcursor : (s.left keywords).cursor = s.storing.cursor.setState Style.docKeyword := hcursor
    refine ⟨hc, hpos', fun _ => ⟨?_, ?_⟩, ?_⟩
    . have hdoc : (s.left keywords).docComment = s.storing.cursor.state := hdoc
      rw [hdoc]
      exact hcomment
    . rw [hcursor]
      exact hcur
    . rw [hcursor]
      show Style.docKeyword ≠ Style.docKeywordError
      decide
  | keywordEnds _ hdoc heq =>
    rcases hkeyword hdoc with hcomment | hcomment
    . exact hother (heq.trans hcomment) (by decide)
    . exact hother (heq.trans hcomment) (by decide)
  | nested hnested heq =>
    have heq : s.left keywords = s.storing.leaveNested := heq
    rcases state_leaveNested hnested with hstyle | hstyle
    . exact hother ((congrArg (·.cursor.state) heq).trans hstyle) (by decide)
    . exact hother ((congrArg (·.cursor.state) heq).trans hstyle) (by decide)

theorem Steady.enter (h : s.Steady doc) : s.enter.Steady doc := by
  obtain ⟨hc, _, hpos, _⟩ := (moves_enter h.onText h.pos_le).onText h.onText h.pos_le
  unfold Scan.enter at *
  split at hc
  . next hstate =>
    rw [if_pos hstate] at hpos
    rw [if_pos hstate]
    cases starts_start h.onText h.pos_le (beq_iff_eq.mp hstate) with
    | nested _ heq =>
      have hstyle : s.start.cursor.state = Style.commentNested := by
        rw [heq]
        exact state_forwardBy _ 1
      refine ⟨hc, hpos, ?_, ?_⟩
      . rw [hstyle]
        exact nofun
      . rw [hstyle]
        decide
    | token _ _ hkeyword herror => exact ⟨hc, hpos, fun hdoc => absurd hdoc hkeyword, herror⟩
  . next hstate =>
    rw [if_neg hstate]
    exact h

theorem Steady.forward (h : s.Steady doc) : (s.withCursor s.cursor.forward).Sound doc := by
  have hmore := h.onText.more_iff.mpr h.pos_le
  have hwidth := h.onText.settled.width_pos
  have hsegment := h.onText.settled.segment_le
  have hposForward := pos_forward hmore
  have hstate : (s.withCursor s.cursor.forward).cursor.state = s.cursor.state := state_forward hmore
  refine ⟨h.onText.forward h.pos_le, ?_, ?_, ?_⟩
  . intro _
    show s.cursor.forward.pen.segment < s.cursor.forward.pos
    rw [pen_forward hmore]
    omega
  . intro hdoc
    obtain ⟨hcomment, hcur⟩ := h.keyword (hstate.symm.trans hdoc)
    obtain ⟨hbyte, hone⟩ := h.onText.settled.byte_of_isInner hcur
    refine ⟨hcomment, ?_, ?_⟩
    . show 0 < s.cursor.forward.pos
      omega
    . show Code.isInner (doc.byteAt (s.cursor.forward.pos - 1) 0).toNat = true
      rw [hposForward, hone, Nat.add_sub_cancel, Document.byteAt, ← h.onText.source.text]
      rw [Document.byteAt] at hbyte
      rw [hbyte]
      exact hcur
  . rw [hstate]
    exact h.not_error

theorem Sound.step (h : s.Sound doc) (hpos : s.cursor.pos ≤ doc.size) (keywords : Keywords) : (s.step keywords).Sound doc :=
  (h.left hpos keywords).enter.forward

end Scan

/--
The scans that a pass over all of a text comes by.
-/
def Visits (keywords : Keywords) (doc : Document) (s : Scan) : Prop :=
  Iterates (·.cursor.more) (Scan.step keywords) (.ofSpan ⟨0, doc.size, Style.default⟩ doc) s

namespace Visits

variable {q i : Nat}

theorem sound_of_iterates (h : Iterates (·.cursor.more) (Scan.step keywords) s t) (hs : s.Sound doc) : t.Sound doc :=
  h.invariant (Scan.Sound doc) (fun _ hmore hu => hu.step (hu.onText.more_iff.mp hmore) keywords) hs

theorem sound (hdoc : doc.WellFormed) (h : Visits keywords doc s) : s.Sound doc :=
  sound_of_iterates h (Scan.sound_begin hdoc)

/--
It comes by each line start, and by the place behind the text.
-/
theorem exists_pos_eq (hs : s.Sound doc) (hq : startsLine doc.text q = true ∨ q = doc.size + 1) (hle : s.cursor.pos ≤ q) :
    ∃ t, Iterates (·.cursor.more) (Scan.step keywords) s t ∧ t.cursor.pos = q := by
  induction hk : q - s.cursor.pos using Nat.strongRecOn generalizing s with
  | ind k ih =>
    rcases Nat.eq_or_lt_of_le hle with heq | hlt
    . exact ⟨s, .refl s, heq⟩
    . have hin : s.cursor.pos ≤ doc.size := by
        rcases hq with hstart | hend
        . have hsize : q ≤ doc.size := le_size_of_startsLine hstart
          omega
        . omega
      obtain ⟨hpos, hover⟩ := Scan.pos_step hs.onText hin keywords
      have hnext := hover q hq hlt
      obtain ⟨t, hrun, ht⟩ := ih (q - (s.step keywords).cursor.pos) (by omega) (hs.step hin keywords) hnext rfl
      exact ⟨t, .head (hs.onText.more_iff.mpr hin) hrun, ht⟩

/--
A pass ends behind the text, and leaves what the scan there does.
-/
theorem exists_end (hdoc : doc.WellFormed) (h : Visits keywords doc s) :
    ∃ t, Iterates (·.cursor.more) (Scan.step keywords) s t ∧ t.cursor.pos = doc.size + 1
      ∧ colour keywords ⟨0, doc.size, Style.default⟩ doc = t.cursor.complete := by
  obtain ⟨t, hrun, ht⟩ : ∃ t, Iterates (·.cursor.more) (Scan.step keywords) s t ∧ t.cursor.pos = doc.size + 1 :=
    exists_pos_eq (h.sound hdoc) (.inr rfl) (h.sound hdoc).onText.pos_le
  have hsound := sound_of_iterates hrun (h.sound hdoc)
  have hend : t.cursor.more = false := by
    rw [Bool.eq_false_iff]
    intro hmore
    have := hsound.onText.more_iff.mp hmore
    omega
  refine ⟨t, hrun, ht, ?_⟩
  have hloop := @more_repeatWhile_of_invariant Scan (·.cursor.more) (Scan.step keywords) (Scan.Sound doc)
    (fun s => s.cursor.remaining)
    (fun u hmore hu => hu.step (hu.onText.more_iff.mp hmore) keywords)
    (fun u hmore hu => ?_) _ _ (Scan.sound_begin hdoc) (fun _ => Nat.le_refl _)
  . have heq := (h.trans hrun).end_unique hend (iterates_repeatWhile _ _ _ _) hloop
    rw [heq]
    rfl
  . have hin := hu.onText.more_iff.mp hmore
    have hstep := (Scan.pos_step hu.onText hin keywords).1
    have hstop := hu.onText.stop
    have hstop' := (hu.step hin keywords).onText.stop
    rw [Cursor.remaining, Cursor.remaining]
    omega

theorem covers_of_iterates {known : Bool} (hs : s.Sound doc) (hrun : Iterates (·.cursor.more) (Scan.step keywords) s t)
    (hi : i < doc.size) (hcovers : s.cursor.Covers isStreamComment known i) : t.cursor.Covers isStreamComment known i := by
  have hkept := hrun.invariant (fun u : Scan => u.Sound doc ∧ u.cursor.Covers isStreamComment known i) (by
    intro u hmore ⟨hu, hcovers'⟩
    have hin := hu.onText.more_iff.mp hmore
    exact ⟨hu.step hin keywords, Scan.covers_step hu.onText hin hi hcovers' keywords⟩) ⟨hs, hcovers⟩
  exact hkept.2

/--
What has been decided, a pass leaves.
-/
theorem isStreamComment_colour {known : Bool} (hdoc : doc.WellFormed) (h : Visits keywords doc s) (hi : i < doc.size)
    (hcovers : s.cursor.Covers isStreamComment known i) :
    isStreamComment ((colour keywords ⟨0, doc.size, Style.default⟩ doc).styleAt i) = known := by
  obtain ⟨t, hrun, _, heq⟩ := h.exists_end hdoc
  rw [heq]
  exact (covers_of_iterates (h.sound hdoc) hrun hi hcovers).complete (sound_of_iterates hrun (h.sound hdoc)).onText hi

end Visits

end Highlight.Rust
