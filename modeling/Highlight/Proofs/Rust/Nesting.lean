import Highlight.Proofs.Rust.Comment
import Highlight.Proofs.Rust.Resume
import Highlight.Proofs.Text.Brackets

/-!
The depth of the nested comments of Rust in a pass from the start of the text. A nested comment is open where the depth is
not zero, the depth is what `/+` and `+/` come to from where the comment was opened, and each line stores the depth that it
ends with.
-/

namespace Highlight.Rust

open Cursor LineIndex Brackets

variable {doc : Document} {keywords : Keywords} {s t l : Scan} {q : Nat}

/--
What opens and closes a nested comment.
-/
def nested : Brackets :=
  { opener := ('/'.toUInt8, '+'.toUInt8)
    closer := ('+'.toUInt8, '/'.toUInt8) }

/--
A scan between two steps in the nested comment that was opened outside of a token at `q`. A comment that closes and one that
opens right behind it are two.
-/
inductive Nested (keywords : Keywords) (doc : Document) (q : Nat) : Scan → Prop where
  | opens {s : Scan} : Visits keywords doc s → s.Between keywords q → StandsAt nested.opener doc q
    → Nested keywords doc q (s.step keywords)
  | goesOn {s : Scan} : Nested keywords doc q s → s.cursor.more = true → (s.left keywords).cursor.state = Style.commentNested
    → Nested keywords doc q (s.step keywords)

theorem ascii_nested : nested.opener.1.toNat < 0x80 ∧ nested.closer.1.toNat < 0x80 := by
  decide

theorem seesPair_opener_iff {c : Cursor} (hc : c.OnText doc) : c.seesPair '/' '+' = true ↔ StandsAt nested.opener doc c.pos :=
  hc.seesPair_iff (by decide) (by decide)

theorem seesPair_closer_iff {c : Cursor} (hc : c.OnText doc) : c.seesPair '+' '/' = true ↔ StandsAt nested.closer doc c.pos :=
  hc.seesPair_iff (by decide) (by decide)

namespace Scan

/--
No nested comment is open.
-/
structure Unnested (s : Scan) : Prop where
  state : s.cursor.state ≠ Style.commentNested
  nesting : s.nesting = 0

/--
A nested comment is open.
-/
structure InNested (s : Scan) : Prop where
  state : s.cursor.state = Style.commentNested
  nesting : 0 < s.nesting

theorem nesting_storing (s : Scan) : s.storing.nesting = s.nesting := by
  rcases s.storing_eq with h | h
  . rw [h]
  . rw [h]
    rfl

theorem Unnested.left (h : s.Unnested) (hs : s.Sound doc) (hpos : s.cursor.pos ≤ doc.size) (keywords : Keywords) :
    (s.left keywords).Unnested := by
  obtain ⟨hr, _, hposr, _⟩ := (@moves_storing isStreamComment s).onText hs.onText hpos
  have hstate := s.state_storing
  have hnesting : s.storing.nesting = 0 := s.nesting_storing.trans h.nesting
  have hother {style : Highlight.Style} (hkeeps : s.storing.Keeps (s.left keywords)) (heq : (s.left keywords).cursor.state = style)
      (hstyle : style ≠ Style.commentNested) : (s.left keywords).Unnested :=
    ⟨heq ▸ hstyle, hkeeps.nesting.trans hnesting⟩
  cases leaves_leave hr hposr keywords with
  | ends hkeeps _ heq => exact hother hkeeps heq (by decide)
  | goesOn hkeeps hnested heq _ => exact hother hkeeps heq hnested
  | unclosed hkeeps _ heq => exact hother hkeeps heq (by decide)
  | keyword hkeeps _ _ hcursor _ => exact hother hkeeps (congrArg Cursor.state hcursor) (show Style.docKeyword ≠ _ by decide)
  | keywordEnds hkeeps hdoc heq =>
    rw [s.docComment_storing] at heq
    rcases (hs.keyword (hstate.symm.trans hdoc)).1 with hcomment | hcomment
    . exact hother hkeeps (heq.trans hcomment) (by decide)
    . exact hother hkeeps (heq.trans hcomment) (by decide)
  | nested hnested _ => exact absurd (hstate.symm.trans hnested) h.state

/--
The two characters that open a nested comment do so outside of a token.
-/
theorem start_of_nested_opener (hpair : l.cursor.seesPair '/' '+' = true) : l.start = l.openNested := by
  obtain ⟨hcur, hnext⟩ := Bool.and_eq_true_iff.mp hpair
  have hcur : l.cursor.cur = 0x2F := beq_iff_eq.mp hcur
  have hnext : l.cursor.next = 0x2B := beq_iff_eq.mp hnext
  have hnumber : (l.cursor.cur.isDigit || l.cursor.sees '.' && l.cursor.next.isDigit) = false := by
    rw [Cursor.sees, hcur, hnext]
    decide
  have hraw : (l.cursor.cur.isOneOf "rxq" && l.cursor.next == Code.quote) = false := by
    rw [hcur, hnext]
    decide
  have hword : (isWordStart l.cursor.cur || l.cursor.sees '$') = false := by
    rw [Cursor.sees, hcur]
    decide
  unfold start
  dsimp only
  rw [hnumber, hraw, hword, hpair, if_neg Bool.false_ne_true, if_neg Bool.false_ne_true, if_neg Bool.false_ne_true, if_pos rfl]
  rfl

theorem enter_of_opener (hl : l.Steady doc) (hstate : l.cursor.state = Style.default)
    (hopens : StandsAt nested.opener doc l.cursor.pos) : l.enter = l.openNested := by
  unfold Scan.enter
  rw [if_pos (beq_iff_eq.mpr hstate)]
  exact start_of_nested_opener ((seesPair_opener_iff hl.onText).mpr hopens)

/--
Outside of a nested comment, nothing but these two characters opens one.
-/
theorem Unnested.enter (h : l.Unnested) (hl : l.Steady doc)
    (hother : ¬ (l.cursor.state = Style.default ∧ StandsAt nested.opener doc l.cursor.pos)) : l.enter.Unnested := by
  unfold Scan.enter
  split
  . next hstate =>
    have hstate := beq_iff_eq.mp hstate
    cases starts_start hl.onText hl.pos_le hstate with
    | nested hpair _ => exact absurd ⟨hstate, (seesPair_opener_iff hl.onText).mp hpair⟩ hother
    | token hkeeps hstyle _ _ => exact ⟨hstyle, hkeeps.nesting.trans h.nesting⟩
  . exact h

/--
Behind the two characters that open it, a nested comment is open.
-/
theorem inNested_openNested (hl : l.Steady doc) (hnesting : l.nesting = 0) (hopens : StandsAt nested.opener doc l.cursor.pos) :
    (l.openNested.withCursor l.openNested.cursor.forward).InNested
      ∧ nested.Reads doc l.cursor.pos l.openNested.cursor.forward.pos l.openNested.nesting := by
  have hpair := (seesPair_opener_iff hl.onText).mpr hopens
  have hset := (hl.onText.setLineState l.cursor.line (Nesting.pack (l.nesting + 1))).setState Style.commentNested
  obtain ⟨_, _, _, hpos⟩ := hset.pos_forward_of_seesPair hl.pos_le (by decide) (by decide) hpair
  have hpos : l.openNested.cursor.forward.pos = l.cursor.pos + 2 := hpos
  have hone : l.openNested.nesting = 1 := congrArg (· + 1) hnesting
  refine ⟨⟨state_forwardBy _ 2, ?_⟩, ?_⟩
  . show 0 < l.openNested.nesting
    omega
  . rw [hpos, hone]
    exact .opens .refl hopens

/--
At a closing pair a nested comment is one less deep, and over when the depth is zero.
-/
theorem InNested.leaveNested_of_closer (h : s.InNested) (hs : s.cursor.OnText doc) (hpos : s.cursor.pos ≤ doc.size)
    (hpair : s.cursor.seesPair '+' '/' = true) :
    (s.leaveNested.cursor.state = Style.default ∧ s.leaveNested.nesting = 0)
      ∨ s.leaveNested.InNested ∧ ∀ q, nested.Reads doc q s.cursor.pos s.nesting →
        nested.Reads doc q s.leaveNested.cursor.forward.pos s.leaveNested.nesting := by
  have hset := hs.setLineState s.cursor.line (Nesting.pack (s.nesting - 1))
  obtain ⟨_, _, _, hbehind⟩ := hset.pos_forward_of_seesPair hpos (by decide) (by decide) hpair
  have hcloses : StandsAt nested.closer doc s.cursor.pos := (seesPair_closer_iff hs).mp hpair
  have hopener : ¬ StandsAt nested.opener doc s.cursor.pos := by
    intro hopens
    have := hopens.1.symm.trans hcloses.1
    exact absurd this (by decide)
  unfold leaveNested
  rw [if_pos hpair]
  by_cases hzero : s.nesting - 1 = 0
  . left
    show (if (s.nesting - 1 == 0) = true then _ else _ : Cursor).state = _ ∧ s.nesting - 1 = 0
    rw [if_pos (beq_iff_eq.mpr hzero)]
    exact ⟨rfl, hzero⟩
  . right
    have hcursor : (if (s.nesting - 1 == 0) = true then
        (s.cursor.setLineState s.cursor.line (Nesting.pack (s.nesting - 1))).forward.forwardSetState Style.default
        else (s.cursor.setLineState s.cursor.line (Nesting.pack (s.nesting - 1))).forward)
        = (s.cursor.setLineState s.cursor.line (Nesting.pack (s.nesting - 1))).forward :=
      if_neg (fun heq => hzero (beq_iff_eq.mp heq))
    refine ⟨⟨?_, Nat.pos_of_ne_zero hzero⟩, ?_⟩
    . refine (congrArg Cursor.state hcursor).trans ?_
      exact (state_forwardBy _ 1).trans h.state
    . intro q hreads
      have hgoal : nested.Reads doc q (s.cursor.pos + 2) (s.nesting - 1) := by
        refine .closes ?_ hopener hcloses
        rwa [Nat.sub_add_cancel h.nesting]
      refine (congrArg (nested.Reads doc q · (s.nesting - 1)) ?_).mp hgoal
      exact hbehind.symm.trans (congrArg (fun c : Cursor => c.forward.pos) hcursor.symm)

/--
Within a nested comment, it closes when the depth is zero, or the depth goes by the pair of bytes at the cursor.
-/
theorem InNested.leaveNested (h : s.InNested) (hs : s.cursor.OnText doc) (hsingle : ∀ page, doc.encoding ≠ .doubleByte page)
    (hpos : s.cursor.pos ≤ doc.size) :
    (s.leaveNested.cursor.state = Style.default ∧ s.leaveNested.nesting = 0)
      ∨ s.leaveNested.InNested ∧ ∀ q, nested.Reads doc q s.cursor.pos s.nesting →
        nested.Reads doc q s.leaveNested.cursor.forward.pos s.leaveNested.nesting := by
  by_cases hcloser : s.cursor.seesPair '+' '/' = true
  . exact h.leaveNested_of_closer hs hpos hcloser
  . right
    unfold Scan.leaveNested
    rw [if_neg hcloser]
    split
    . next hpair =>
      have hset := hs.setLineState s.cursor.line (Nesting.pack (s.nesting + 1))
      obtain ⟨_, _, _, hbehind⟩ := hset.pos_forward_of_seesPair hpos (by decide) (by decide) hpair
      refine ⟨⟨(state_forwardBy _ 1).trans h.state, Nat.succ_pos _⟩, ?_⟩
      intro q hreads
      have hgoal : nested.Reads doc q (s.cursor.pos + 2) (s.nesting + 1) := .opens hreads ((seesPair_opener_iff hs).mp hpair)
      exact hbehind ▸ hgoal
    . next hopener =>
      refine ⟨h, ?_⟩
      intro q hreads
      rw [pos_forward (hs.more_iff.mpr hpos), hs.settled.width_eq, hs.decodeAt_eq]
      exact hreads.skipsCharacter hsingle ascii_nested (fun hopens => hopener ((seesPair_opener_iff hs).mpr hopens))
        (fun hcloses => hcloser ((seesPair_closer_iff hs).mpr hcloses))

/--
Storing the depth first changes nothing about what a nested comment comes to.
-/
theorem InNested.left (h : s.InNested) (hs : s.Sound doc) (hsingle : ∀ page, doc.encoding ≠ .doubleByte page)
    (hpos : s.cursor.pos ≤ doc.size) (keywords : Keywords) :
    ((s.left keywords).cursor.state = Style.default ∧ (s.left keywords).nesting = 0)
      ∨ (s.left keywords).InNested ∧ ∀ q, nested.Reads doc q s.cursor.pos s.nesting →
        nested.Reads doc q (s.left keywords).cursor.forward.pos (s.left keywords).nesting := by
  obtain ⟨hstoring, _, hpos', _⟩ := (@moves_storing isStreamComment s).onText hs.onText hpos
  have hin : s.storing.InNested := ⟨s.state_storing.trans h.state, by rw [s.nesting_storing]; exact h.nesting⟩
  have hleft : s.left keywords = s.storing.leaveNested := by
    unfold Scan.left Scan.leave
    dsimp only
    rw [hin.state]
    rfl
  rw [hleft, ← s.pos_storing, ← s.nesting_storing]
  exact hin.leaveNested hstoring hsingle hpos'

theorem unnested_begin (hdoc : doc.WellFormed) : (ofSpan ⟨0, doc.size, Style.default⟩ doc).Unnested := by
  obtain ⟨_, _, hline, hstate⟩ := OnText.start hdoc Style.default
  refine ⟨?_, ?_⟩
  . show (Cursor.start doc ⟨0, doc.size, Style.default⟩).state ≠ _
    rw [hstate]
    decide
  . show Nesting.before doc (Cursor.start doc ⟨0, doc.size, Style.default⟩).line = 0
    rw [hline]
    rfl

/--
What a step does about nested comments: none is open behind it, it opens one, or it goes on with one.
-/
inductive Nests (keywords : Keywords) (doc : Document) (s : Scan) : Prop where
  | unnested : (s.left keywords).cursor.state ≠ Style.commentNested
    → ¬ ((s.left keywords).cursor.state = Style.default ∧ StandsAt nested.opener doc (s.left keywords).cursor.pos)
    → (s.step keywords).Unnested → Nests keywords doc s
  | opens : (s.left keywords).cursor.state = Style.default → StandsAt nested.opener doc (s.left keywords).cursor.pos
    → (s.step keywords).InNested
    → nested.Reads doc (s.left keywords).cursor.pos (s.step keywords).cursor.pos (s.step keywords).nesting → Nests keywords doc s
  | goesOn : s.InNested → (s.left keywords).cursor.state = Style.commentNested → (s.step keywords).InNested
    → (∀ q, nested.Reads doc q s.cursor.pos s.nesting →
      nested.Reads doc q (s.step keywords).cursor.pos (s.step keywords).nesting) → Nests keywords doc s

/--
The step of a scan that is outside of a nested comment when its token has ended or gone on.
-/
theorem Unnested.nests (h : (s.left keywords).Unnested) (hl : (s.left keywords).Steady doc) : s.Nests keywords doc := by
  by_cases hopens : (s.left keywords).cursor.state = Style.default ∧ StandsAt nested.opener doc (s.left keywords).cursor.pos
  . obtain ⟨hinside, hreads⟩ := inNested_openNested hl h.nesting hopens.2
    have henter := enter_of_opener hl hopens.1 hopens.2
    refine .opens hopens.1 hopens.2 ?_ ?_
    . rw [step_eq, henter]
      exact hinside
    . rw [step_eq, henter]
      exact hreads
  . have hunnested := h.enter hl hopens
    refine .unnested h.state hopens ⟨?_, hunnested.nesting⟩
    rw [step_eq]
    exact fun heq => hunnested.state ((state_forwardBy _ 1).symm.trans heq)

theorem nests_step (h : s.Unnested ∨ s.InNested) (hs : s.Sound doc) (hsingle : ∀ page, doc.encoding ≠ .doubleByte page)
    (hpos : s.cursor.pos ≤ doc.size) (keywords : Keywords) : s.Nests keywords doc := by
  have hleft := hs.left hpos keywords
  rcases h with h | h
  . exact (h.left hs hpos keywords).nests hleft
  . rcases h.left hs hsingle hpos keywords with ⟨hstate, hzero⟩ | ⟨hinside, hreads⟩
    . exact Unnested.nests ⟨by rw [hstate]; decide, hzero⟩ hleft
    . have henter : (s.left keywords).enter = s.left keywords := by
        unfold Scan.enter
        rw [if_neg]
        rw [hinside.state]
        decide
      refine .goesOn h hinside.state ?_ ?_
      . rw [step_eq, henter]
        exact ⟨(state_forwardBy _ 1).trans hinside.state, hinside.nesting⟩
      . rw [step_eq, henter]
        exact hreads

/--
The current line stores the depth so far.
-/
def Stores (s : Scan) : Prop :=
  s.cursor.doc.lineState s.cursor.line = Nesting.pack s.nesting

theorem stores_storeNesting (hc : s.cursor.OnText doc) (hpos : s.cursor.pos ≤ doc.size) : s.storeNesting.Stores := by
  have hline : s.cursor.line < s.cursor.doc.lineCount := by
    have hlt := hc.settled.wellFormed.lineOf_lt s.cursor.pos
    have hsize := hc.size_eq
    rw [hc.settled.line, if_neg (by omega)]
    exact hlt
  exact Document.lineState_setLineState hc.settled.wellFormed hline _

theorem Stores.of_lineStates (h : s.Stores) (hline : t.cursor.line = s.cursor.line)
    (hstates : t.cursor.doc.lineStates = s.cursor.doc.lineStates) (hnesting : t.nesting = s.nesting) : t.Stores := by
  unfold Stores Document.lineState at *
  rw [hline, hstates, hnesting, h]

theorem Stores.of_keeps (h : s.Stores) (hkeeps : s.Keeps t) (hc : s.cursor.OnText doc) (hpos : s.cursor.pos ≤ doc.size) :
    t.Stores :=
  h.of_lineStates (hkeeps.moves.onText hc hpos).2.2.2 hkeeps.moves.lineStates hkeeps.nesting

section Turn

variable (hc : s.cursor.OnText doc) (hpos : s.cursor.pos ≤ doc.size)
include hc hpos

theorem stores_leaveNested (h : s.Stores) : s.leaveNested.Stores := by
  have hmoves : Moves isStreamComment True s.cursor s.leaveNested.cursor := moves_leaveNested hc hpos
  have hline : s.leaveNested.cursor.line = s.cursor.line := (hmoves.onText hc hpos).2.2.2
  have hstored (depth : Nat) : ({ s with nesting := depth }.storeNesting).Stores := stores_storeNesting hc hpos
  revert hline
  unfold leaveNested
  split
  . intro hline
    refine (hstored (s.nesting - 1)).of_lineStates hline ?_ rfl
    show (if (s.nesting - 1 == 0) = true then _ else _ : Cursor).doc.lineStates = _
    split
    . exact (Pen.lineStates_colourTo _ _ _).trans (congrArg Document.lineStates ((doc_forward _).trans (doc_forward _)))
    . exact congrArg Document.lineStates (doc_forward _)
  . split
    . intro hline
      exact (hstored (s.nesting + 1)).of_lineStates hline (congrArg Document.lineStates (doc_forward _)) rfl
    . exact fun _ => h

theorem stores_left (h : s.cursor.atLineStart = true ∨ s.Stores) (keywords : Keywords) : (s.left keywords).Stores := by
  have hstored : s.storing.Stores := by
    unfold storing
    split
    . exact stores_storeNesting hc hpos
    . next hinside => exact h.resolve_left hinside
  obtain ⟨hr, _, hposr, _⟩ := (@moves_storing isStreamComment s).onText hc hpos
  have hleaves := leaves_leave hr hposr keywords
  change s.storing.Leaves (s.left keywords) at hleaves
  cases hleaves with
  | ends hkeeps _ _ => exact hstored.of_keeps hkeeps hr hposr
  | goesOn hkeeps _ _ _ => exact hstored.of_keeps hkeeps hr hposr
  | unclosed hkeeps _ _ => exact hstored.of_keeps hkeeps hr hposr
  | keyword hkeeps _ _ _ _ => exact hstored.of_keeps hkeeps hr hposr
  | keywordEnds hkeeps _ _ => exact hstored.of_keeps hkeeps hr hposr
  | nested _ heq =>
    rw [heq]
    exact stores_leaveNested hr hposr hstored

theorem stores_enter (h : s.Stores) : s.enter.Stores := by
  unfold Scan.enter
  split
  . next hstate =>
    cases starts_start hc hpos (beq_iff_eq.mp hstate) with
    | nested hpair heq =>
      have hmoves : Moves isStreamComment True s.cursor s.openNested.cursor := moves_openNested hpair
      have hline : s.openNested.cursor.line = s.cursor.line := (hmoves.onText hc hpos).2.2.2
      have hstored : ({ s with nesting := s.nesting + 1 }.storeNesting).Stores := stores_storeNesting hc hpos
      rw [heq]
      exact hstored.of_lineStates hline
        ((congrArg Document.lineStates (doc_forward _)).trans (Pen.lineStates_colourTo _ _ _)) rfl
    | token hkeeps _ _ _ => exact h.of_keeps hkeeps hc hpos
  . exact h

end Turn

/--
Between two steps, a line that the cursor stands in stores the depth, and so does the one that it has just left.
-/
structure UpToDate (s : Scan) : Prop where
  inside : s.cursor.atLineStart = false → s.Stores
  behind : s.cursor.atLineStart = true → 0 < s.cursor.pos → s.cursor.doc.lineState (s.cursor.line - 1) = Nesting.pack s.nesting

theorem UpToDate.step (h : s.UpToDate) (hs : s.Sound doc) (hpos : s.cursor.pos ≤ doc.size) (keywords : Keywords) :
    (s.step keywords).UpToDate := by
  have hleft := hs.left hpos keywords
  have hstores : (s.left keywords).Stores := by
    refine stores_left hs.onText hpos ?_ keywords
    cases hstart : s.cursor.atLineStart with
    | false => exact .inr (h.inside hstart)
    | true => exact .inl rfl
  have henter := stores_enter hleft.onText hleft.pos_le hstores
  have hmore := hleft.enter.onText.more_iff.mpr hleft.enter.pos_le
  unfold Stores at henter
  rw [step_eq]
  refine ⟨?_, ?_⟩
  . intro hend
    have hend := (atLineStart_forward hmore).symm.trans hend
    show (s.left keywords).enter.cursor.forward.doc.lineState (s.left keywords).enter.cursor.forward.line = _
    rw [doc_forward, line_forward hmore, hend]
    exact henter
  . intro hend _
    have hend := (atLineStart_forward hmore).symm.trans hend
    show (s.left keywords).enter.cursor.forward.doc.lineState ((s.left keywords).enter.cursor.forward.line - 1) = _
    rw [doc_forward, line_forward hmore, hend]
    exact henter

end Scan

section Depth

variable (hdoc : doc.WellFormed) (hsingle : ∀ page, doc.encoding ≠ .doubleByte page)
include hdoc hsingle

theorem Visits.unnested_or_inNested (h : Visits keywords doc s) : s.Unnested ∨ s.InNested := by
  have hbegin := Scan.unnested_begin hdoc
  have hkept := h.invariant (fun s : Scan => s.Sound doc ∧ (s.Unnested ∨ s.InNested)) ?_ ⟨Scan.sound_begin hdoc, .inl hbegin⟩
  . exact hkept.2
  . intro s hmore ⟨hs, hnests⟩
    have hpos := hs.onText.more_iff.mp hmore
    refine ⟨hs.step hpos keywords, ?_⟩
    cases Scan.nests_step hnests hs hsingle hpos keywords with
    | unnested _ _ hunnested => exact .inl hunnested
    | opens _ _ hinside _ => exact .inr hinside
    | goesOn _ _ hinside _ => exact .inr hinside

/--
A nested comment is open if, and only if, the depth is not zero.
-/
theorem Visits.nested_iff (h : Visits keywords doc s) : s.cursor.state = Style.commentNested ↔ 0 < s.nesting := by
  rcases h.unnested_or_inNested hdoc hsingle with h | h
  . exact iff_of_false h.state (Nat.not_lt_of_le (Nat.le_of_eq h.nesting))
  . exact iff_of_true h.state h.nesting

theorem Visits.nests (h : Visits keywords doc s) (hmore : s.cursor.more = true) : s.Nests keywords doc :=
  Scan.nests_step (h.unnested_or_inNested hdoc hsingle) (h.sound hdoc) hsingle ((h.sound hdoc).onText.more_iff.mp hmore) keywords

/--
In a nested comment, the depth is what has been read since it was opened.
-/
theorem Nested.reads (h : Nested keywords doc q s) : Visits keywords doc s ∧ nested.Reads doc q s.cursor.pos s.nesting := by
  induction h with
  | @opens s hvisits hbetween hopens =>
    refine ⟨hvisits.tail hbetween.more, ?_⟩
    rw [← hbetween.pos] at hopens ⊢
    cases hvisits.nests hdoc hsingle hbetween.more with
    | unnested _ hother _ => exact absurd ⟨hbetween.state, hopens⟩ hother
    | opens _ _ _ hreads => exact hreads
    | goesOn _ hstate _ _ => exact absurd (hbetween.state.symm.trans hstate) (by decide)
  | @goesOn s _ hmore hstate ih =>
    obtain ⟨hvisits, hreads⟩ := ih
    refine ⟨hvisits.tail hmore, ?_⟩
    cases hvisits.nests hdoc hsingle hmore with
    | unnested hother _ _ => exact absurd hstate hother
    | opens hother _ _ _ => exact absurd (hstate.symm.trans hother) (by decide)
    | goesOn _ _ _ hgoes => exact hgoes q hreads

/--
Where the depth is not zero, a nested comment has been opened.
-/
theorem Visits.exists_nested (h : Visits keywords doc s) (hnesting : 0 < s.nesting) : ∃ q, Nested keywords doc q s := by
  have hkept := h.invariant (fun s : Scan => Visits keywords doc s ∧ (s.Unnested ∨ ∃ q, Nested keywords doc q s)) ?_
    ⟨.refl _, ?_⟩
  . exact hkept.2.resolve_left fun hunnested => Nat.ne_of_gt hnesting hunnested.nesting
  . intro s hmore ⟨hvisits, hopened⟩
    refine ⟨hvisits.tail hmore, ?_⟩
    cases hvisits.nests hdoc hsingle hmore with
    | unnested _ _ hunnested => exact .inl hunnested
    | opens hstate hopens _ _ => exact .inr ⟨_, .opens hvisits ⟨hmore, rfl, hstate⟩ hopens⟩
    | goesOn hinside hstate _ _ =>
      obtain ⟨q, hnested⟩ := hopened.resolve_left fun hunnested => hunnested.state hinside.state
      exact .inr ⟨q, .goesOn hnested hmore hstate⟩
  . exact .inl (Scan.unnested_begin hdoc)

/--
A nested comment takes two bytes for each level.
-/
theorem Visits.two_mul_nesting_le (h : Visits keywords doc s) : 2 * s.nesting ≤ doc.size := by
  rcases Nat.eq_zero_or_pos s.nesting with hzero | hsome
  . omega
  . obtain ⟨q, hq⟩ := h.exists_nested hdoc hsingle hsome
    exact (hq.reads hdoc hsingle).2.two_mul_le_size

end Depth

/--
A line keeps the state that the pass has left it with.
-/
theorem Visits.lineState_of_iterates (hs : s.Sound doc) (hrun : Iterates (·.cursor.more) (Scan.step keywords) s t) {line : Nat}
    (hline : line < s.cursor.line) : t.cursor.doc.lineState line = s.cursor.doc.lineState line := by
  have hkept := hrun.invariant (fun u : Scan => u.Sound doc ∧ line < u.cursor.line
    ∧ u.cursor.doc.lineState line = s.cursor.doc.lineState line) ?_ ⟨hs, hline, rfl⟩
  . exact hkept.2.2
  . intro u hmore ⟨hu, hlt, heq⟩
    have hpos := hu.onText.more_iff.mp hmore
    obtain ⟨hle, hother⟩ := Scan.lineState_step hu.onText hpos keywords
    exact ⟨hu.step hpos keywords, by omega, (hother line (by omega)).trans heq⟩

/--
A pass comes by the end of each line.
-/
theorem Visits.exists_behindLine (hdoc : doc.WellFormed) (keywords : Keywords) (line : Nat) :
    ∃ t, Visits keywords doc t ∧ t.cursor.pos = doc.behindLine line := by
  obtain ⟨_, hfront, _, _⟩ := OnText.start hdoc Style.default
  have hfront : (Scan.ofSpan ⟨0, doc.size, Style.default⟩ doc).cursor.pos = 0 := hfront
  exact Visits.exists_pos_eq (Scan.sound_begin hdoc) (hdoc.startsLine_behindLine line) (by omega)

theorem Visits.upToDate (hdoc : doc.WellFormed) (h : Visits keywords doc s) : s.UpToDate := by
  obtain ⟨_, hfront, _, _⟩ := OnText.start hdoc Style.default
  have hfront : (Scan.ofSpan ⟨0, doc.size, Style.default⟩ doc).cursor.pos = 0 := hfront
  have hkept := h.invariant (fun u : Scan => u.Sound doc ∧ u.UpToDate) ?_ ⟨Scan.sound_begin hdoc, ?_, ?_⟩
  . exact hkept.2
  . intro u hmore ⟨hu, hdate⟩
    have hin := hu.onText.more_iff.mp hmore
    exact ⟨hu.step hin keywords, hdate.step hu hin keywords⟩
  . intro hinside
    have hstart := (Scan.sound_begin hdoc).onText.settled.atLineStart
    rw [hinside, hfront, startsLine_zero] at hstart
    cases hstart
  . intro _ hlt
    omega

/--
The depth at the end of a line is what the pass stores for it.
-/
theorem Visits.lineState_colour (hdoc : doc.WellFormed) (h : Visits keywords doc t) {line : Nat} (hline : line < doc.lineCount)
    (hpos : t.cursor.pos = doc.behindLine line) :
    (colour keywords ⟨0, doc.size, Style.default⟩ doc).lineState line = Nesting.pack t.nesting := by
  have ht := h.sound hdoc
  obtain ⟨hat, hstart, hsome⟩ := ht.onText.line_of_behindLine hdoc hline hpos
  have hstored := (h.upToDate hdoc).behind hstart hsome
  rw [hat, Nat.add_sub_cancel] at hstored
  obtain ⟨u, hrun, _, heq⟩ := h.exists_end hdoc
  rw [heq, ← hstored, ← Visits.lineState_of_iterates ht hrun (by omega)]
  exact congrArg (fun states : Array LineState => (states[line]?).getD 0) (Pen.lineStates_colourTo _ _ _)

end Highlight.Rust
