import Highlight.Proofs.Cursor.Moves
import Highlight.Proofs.Scss.Resume

/-!
What a step of SCSS can do, in a pass over all of a text. Outside of a string it may open one, with a quote. In a string it does
nothing up to the quote that closes it, and goes on outside of it behind that.
-/

namespace Highlight.Scss

open Cursor LineIndex

variable {doc : Document} {keywords : Keywords} {kind : Style → Bool} {known : Bool} {style : Style} {c : Cursor} {s t u : Scan} {i : Nat}

def isString (style : Style) : Bool :=
  style == Style.doubleString || style == Style.singleString

/--
A kind of styles that all styles but those of strings have, or that none of them has.
-/
def DependsOnString (kind : Style → Bool) : Prop :=
  ∀ style style', isString style = false → isString style' = false → kind style = kind style'

theorem dependsOnString_isString : DependsOnString isString :=
  fun _ _ h h' => h.trans h'.symm

theorem dependsOnString_beq (h : isString style = true) : DependsOnString (· == style) := by
  have hne {other : Style} (hother : isString other = false) : (other == style) = false := by
    rw [beq_eq_false_iff_ne]
    rintro rfl
    rw [h] at hother
    cases hother
  intro _ _ h' h''
  exact (hne h').trans (hne h'').symm

/--
The quote at both ends of a string.
-/
def quoteOf (style : Style) : Code :=
  if style == Style.doubleString then Code.quote else Code.apostrophe

theorem isString_cases (h : isString style = true) : style = Style.doubleString ∨ style = Style.singleString := by
  rwa [isString, Bool.or_eq_true, beq_iff_eq, beq_iff_eq] at h

theorem quoteOf_cases (style : Style) : quoteOf style = Code.quote ∨ quoteOf style = Code.apostrophe := by
  unfold quoteOf
  split
  . exact .inl rfl
  . exact .inr rfl

theorem isInner_quoteOf (style : Style) : (quoteOf style).isInner = true := by
  rcases quoteOf_cases style with h | h
  . rw [h]
    rfl
  . rw [h]
    rfl

theorem isString_identifierStyle (keywords : Keywords) (word : String) : isString (identifierStyle keywords word) = false := by
  unfold identifierStyle
  repeat' split
  all_goals rfl

theorem isString_pseudoStyle (keywords : Keywords) (context : Context) (word : String) :
    isString (pseudoStyle keywords context word) = false := by
  unfold pseudoStyle
  simp only
  repeat' split
  all_goals rfl

theorem isString_wordStyle (keywords : Keywords) (context : Context) (h : isString style = false) (word : String) :
    isString (wordStyle keywords context style word) = false := by
  unfold wordStyle
  split
  . exact isString_identifierStyle keywords word
  . split
    . exact isString_pseudoStyle keywords context word
    . split
      . split
        . exact h
        . rfl
      . split
        . rfl
        . exact h

theorem isString_of_ite {p : Prop} [Decidable p] {found : Style} {rest : Option Style} (hfound : isString found = false)
    (hrest : ∀ style, rest = some style → isString style = false) :
    ∀ style, (if p then some found else rest) = some style → isString style = false := by
  intro style h
  split at h
  . cases h
    exact hfound
  . exact hrest style h

theorem isString_of_styleAfter? {context : Context} : ∀ style, styleAfter? context = some style → isString style = false := by
  unfold styleAfter?
  repeat refine isString_of_ite (by decide) ?_
  exact nofun

/--
The styles that a context keeps for what comes behind a comment or a string are none of strings.
-/
structure Context.Plain (context : Context) : Prop where
  beforeComment : ∀ style, context.beforeComment? = some style → isString style = false
  beforeString : ∀ style, context.beforeString? = some style → isString style = false

namespace Scan

/--
From `s` to `t`, tokens other than strings end and start, and all that is open becomes something else, at one character.
-/
structure Settles (kind : Style → Bool) (s t : Scan) : Prop where
  moves : Moves kind False s.cursor t.cursor
  pos : t.cursor.pos = s.cursor.pos
  context : t.context = s.context
  state : isString t.cursor.state = false

/--
Where a step outside of strings leads: outside of strings, or to the quote that a string starts with.
-/
inductive Leads (kind : Style → Bool) (s t : Scan) : Prop where
  | outside : Moves kind False s.cursor t.cursor → t.context.Plain → isString t.cursor.state = false → Leads kind s t
  | opens (c : Cursor) (style : Style) : Moves kind False s.cursor c → c.pos = s.cursor.pos → c.cur = quoteOf style
    → isString style = true → t.cursor = c.setState style → t.context.Plain → Leads kind s t

theorem Leads.moves (h : s.Leads kind t) : Moves kind False s.cursor t.cursor ∧ t.context.Plain := by
  cases h with
  | outside hmoves hplain _ => exact ⟨hmoves, hplain⟩
  | opens c style hmoves _ _ _ heq hplain =>
    rw [heq]
    exact ⟨.setState hmoves style, hplain⟩

theorem Settles.trans (h : s.Settles kind t) (h' : t.Settles kind u) : s.Settles kind u where
  moves := h.moves.trans h'.moves
  pos := h'.pos.trans h.pos
  context := h'.context.trans h.context
  state := h'.state

theorem Settles.leads (h : s.Settles kind t) (h' : t.Leads kind u) : s.Leads kind u := by
  cases h' with
  | outside hmoves hplain hstate => exact .outside (h.moves.trans hmoves) hplain hstate
  | opens c style hmoves hpos hcur hstyle heq hplain =>
    exact .opens c style (h.moves.trans hmoves) (hpos.trans h.pos) hcur hstyle heq hplain

theorem Settles.refl (h : isString s.cursor.state = false) : s.Settles kind s where
  moves := .refl
  pos := rfl
  context := rfl
  state := h

theorem settles_setState (kind : Style → Bool) (s : Scan) (hstyle : isString style = false) :
    s.Settles kind (s.withCursor (s.cursor.setState style)) where
  moves := .setState .refl style
  pos := rfl
  context := rfl
  state := hstyle

section Outside

variable (h : isString s.cursor.state = false)
include h

theorem settles_leaveOperator (kind : Style → Bool) : s.Settles kind s.leaveOperator := by
  unfold leaveOperator
  split
  . next style hstyle => exact settles_setState kind s (isString_of_styleAfter? style hstyle)
  . exact .refl h

theorem settles_classify (hkind : DependsOnString kind) (keywords : Keywords) : s.Settles kind (s.classify keywords) := by
  unfold classify
  dsimp only
  split
  . have hword := isString_wordStyle keywords s.context h
      (String.ofList ((s.cursor.tokenLower 99).toList.dropWhile fun x => !isWord x.toNat))
    exact ⟨.changeState .refl _ (hkind _ _ hword h), rfl, rfl, hword⟩
  . exact .refl h

theorem settles_leaveSelector (kind : Style → Bool) : s.Settles kind s.leaveSelector := by
  unfold leaveSelector
  dsimp only
  split
  . exact settles_setState kind s rfl
  . exact .refl h

variable (hc : s.cursor.OnText doc) (hpos : s.cursor.pos ≤ doc.size) (hplain : s.context.Plain)
include hc hpos hplain

theorem leads_startComment (kind : Style → Bool) (hstyle : isString style = false) (hcur : s.cursor.cur.isInner = true) :
    s.Leads kind (s.startComment style) := by
  refine .outside (.forward (.setState .refl style) hcur) ⟨?_, hplain.beforeString⟩ ?_
  . intro before hbefore
    cases hbefore
    exact h
  . show isString (s.cursor.setState style).forward.state = false
    rw [state_forward ((hc.setState style).more_iff.mpr hpos)]
    exact hstyle

theorem leads_start (kind : Style → Bool) : s.Leads kind s.start := by
  have hslash : Code.isInner '/'.toNat = true := by decide
  unfold start
  dsimp only
  split
  . next hpair => exact leads_startComment h hc hpos hplain kind rfl (isInner_of_seesPair hslash hpair)
  . split
    . next hpair => exact leads_startComment h hc hpos hplain kind rfl (isInner_of_seesPair hslash hpair)
    . split
      . next hquote =>
        have hcur := (Bool.and_eq_true _ _ ▸ hquote).2
        rw [Bool.or_eq_true, beq_iff_eq, beq_iff_eq] at hcur
        have hplain' : Context.Plain { s.context with beforeString? := some s.cursor.state } := by
          refine ⟨hplain.beforeComment, ?_⟩
          intro before hbefore
          cases hbefore
          exact h
        rcases hcur with hcur | hcur
        . refine .opens s.cursor Style.doubleString .refl rfl hcur rfl ?_ hplain'
          rw [hcur]
          rfl
        . refine .opens s.cursor Style.singleString .refl rfl hcur rfl ?_ hplain'
          rw [hcur]
          rfl
      . split
        . exact .outside (.setState .refl _) ⟨hplain.beforeComment, hplain.beforeString⟩ rfl
        . exact .outside .refl hplain h

theorem leads_stepOutside (hkind : DependsOnString kind) (keywords : Keywords) : s.Leads kind (s.stepOutside keywords) := by
  have hleft : s.Settles kind (if s.cursor.state == Style.operator then s.leaveOperator else s) := by
    split
    . exact settles_leaveOperator h kind
    . exact .refl h
  unfold stepOutside
  generalize (if s.cursor.state == Style.operator then s.leaveOperator else s) = t at *
  obtain ⟨ht, _, htpos, _⟩ := hleft.moves.onText hc hpos
  have htplain : t.context.Plain := hleft.context ▸ hplain
  have hend {u : Scan} (hsettles : t.Settles kind u) : t.Leads kind u :=
    .outside hsettles.moves (hsettles.context ▸ htplain) hsettles.state
  dsimp only
  apply hleft.leads
  split
  . split
    . exact hend (settles_setState kind t (show isString Style.tag = false from rfl))
    . exact hend (.refl hleft.state)
  . split
    . exact hend (settles_setState kind t (show isString Style.tag = false from rfl))
    . have hword := settles_classify hleft.state hkind keywords
      have hsettled := hword.trans (settles_leaveSelector hword.state kind)
      obtain ⟨hu, _, hupos, _⟩ := hsettled.moves.onText ht htpos
      exact hsettled.leads (leads_start hsettled.state hu hupos (hsettled.context ▸ htplain) kind)

end Outside

/--
What a step does with the open token, whose style is painted at a line start already.
-/
inductive InToken (keywords : Keywords) (kind : Style → Bool) (s t : Scan) : Prop where
  | goesOn : isString s.cursor.state = true → closesString (quoteOf s.cursor.state) s.cursor = false → t = s → InToken keywords kind s t
  | closes (style : Style) : isString s.cursor.state = true → closesString (quoteOf s.cursor.state) s.cursor = true
    → (s.withCursor (s.cursor.forwardSetState style)).Leads kind t → InToken keywords kind s t
  | outside (u : Scan) : isString s.cursor.state = false → Moves kind False s.cursor u.cursor → u.Leads kind t → InToken keywords kind s t

theorem isInner_of_closesString (h : closesString (quoteOf style) c = true) : c.cur.isInner = true :=
  Code.isInner_of_eq (isInner_quoteOf style) (Bool.and_eq_true _ _ ▸ h).1

theorem InToken.exists_leads (h : s.InToken keywords kind t) :
    isString s.cursor.state = true ∧ t = s ∨ ∃ u : Scan, Moves kind False s.cursor u.cursor ∧ u.Leads kind t := by
  cases h with
  | goesOn hstate _ heq => exact .inl ⟨hstate, heq⟩
  | closes style _ hclose hleads => exact .inr ⟨_, .setState (.forward .refl (isInner_of_closesString hclose)) style, hleads⟩
  | outside u _ hmoves hleads => exact .inr ⟨u, hmoves, hleads⟩

/--
The scan with the open token painted if it goes on over a line start.
-/
def begun (s : Scan) : Scan :=
  if s.cursor.atLineStart then s.withCursor s.cursor.commit else s

/--
The scan within a step, in front of the character behind.
-/
def turn (keywords : Keywords) (s : Scan) : Scan :=
  s.begun.stepInToken keywords

theorem step_eq_turn (keywords : Keywords) (s : Scan) :
    s.step keywords = (s.turn keywords).withCursor (s.turn keywords).storeLine.forward :=
  rfl

theorem moves_begun (kind : Style → Bool) (s : Scan) : Moves kind False s.cursor s.begun.cursor := by
  unfold begun
  split
  . exact .setState .refl s.cursor.state
  . exact .refl

theorem begun_eq (s : Scan) :
    s.begun.cursor.pos = s.cursor.pos ∧ s.begun.cursor.state = s.cursor.state ∧ s.begun.context = s.context := by
  unfold begun
  split
  . exact ⟨rfl, rfl, rfl⟩
  . exact ⟨rfl, rfl, rfl⟩

section Token

variable (hc : s.cursor.OnText doc) (hpos : s.cursor.pos ≤ doc.size) (hplain : s.context.Plain)
include hc hpos hplain

theorem moves_leaveComment (kind : Style → Bool) (h : isString s.cursor.state = false) :
    Moves kind False s.cursor s.leaveComment.cursor ∧ s.leaveComment.context = s.context
      ∧ isString s.leaveComment.cursor.state = false := by
  have hstyle : isString (s.context.beforeComment?.getD Style.default) = false := by
    cases hbefore : s.context.beforeComment? with
    | none => rfl
    | some style => exact hplain.beforeComment style hbefore
  unfold leaveComment
  dsimp only
  split
  . next hclose =>
    have hpair := (Bool.and_eq_true _ _ ▸ hclose).2
    refine ⟨.setState (.forward (.forward .refl (isInner_of_seesPair (by decide) hpair)) ?_) _, rfl, hstyle⟩
    rw [cur_forward (hc.more_iff.mpr hpos)]
    exact Code.isInner_of_is (by decide) (next_of_seesPair hpair)
  . split
    . exact ⟨.setState .refl _, rfl, hstyle⟩
    . exact ⟨.refl, rfl, h⟩

variable (hkind : DependsOnString kind)
include hkind

theorem inToken_stepInString (hstate : isString s.cursor.state = true) :
    s.InToken keywords kind (s.stepInString keywords (quoteOf s.cursor.state)) := by
  have hstyle : isString (s.context.beforeString?.getD Style.value) = false := by
    cases hbefore : s.context.beforeString? with
    | none => rfl
    | some style => exact hplain.beforeString style hbefore
  unfold stepInString
  split
  . next hclose =>
    have hmoves : Moves kind False s.cursor (s.cursor.forwardSetState (s.context.beforeString?.getD Style.value)) :=
      .setState (.forward .refl (isInner_of_closesString hclose)) _
    obtain ⟨hu, _, hupos, _⟩ := hmoves.onText hc hpos
    have hplain' : (s.withCursor (s.cursor.forwardSetState (s.context.beforeString?.getD Style.value))).context.Plain := hplain
    exact .closes _ hstate hclose (leads_stepOutside hstyle hu hupos hplain' hkind keywords)
  . next hopen => exact .goesOn hstate (Bool.eq_false_iff.mpr hopen) rfl

theorem inToken_stepInToken (keywords : Keywords) : s.InToken keywords kind (s.stepInToken keywords) := by
  cases hstate : isString s.cursor.state with
  | true =>
    have hstring := @inToken_stepInString _ keywords _ _ hc hpos hplain hkind hstate
    -- A string is no comment, so what ends comments leaves it as it is.
    have hleave : s.leaveComment = s := by
      unfold leaveComment
      dsimp only
      rcases isString_cases hstate with h | h
      . rw [h]
        rfl
      . rw [h]
        rfl
    unfold stepInToken
    rw [hleave]
    dsimp only
    rcases isString_cases hstate with h | h
    . rw [h] at hstring ⊢
      exact hstring
    . rw [h] at hstring ⊢
      exact hstring
  | false =>
    obtain ⟨hmoves, hcontext, hstate'⟩ := moves_leaveComment hc hpos hplain kind hstate
    obtain ⟨hu, _, hupos, _⟩ := hmoves.onText hc hpos
    have huplain : s.leaveComment.context.Plain := hcontext ▸ hplain
    refine .outside s.leaveComment hstate hmoves ?_
    unfold stepInToken
    generalize s.leaveComment = u at *
    dsimp only
    split
    . exact .outside .refl huplain hstate'
    . exact .outside .refl huplain hstate'
    . next h =>
      rw [h] at hstate'
      cases hstate'
    . next h =>
      rw [h] at hstate'
      cases hstate'
    . exact leads_stepOutside hstate' hu hupos huplain hkind keywords

end Token

/--
What is so with a scan of a pass over all of a text.
-/
structure Sound (doc : Document) (s : Scan) : Prop where
  onText : s.cursor.OnText doc
  plain : s.context.Plain

section Step

variable (hs : s.Sound doc) (hpos : s.cursor.pos ≤ doc.size)
include hs hpos

theorem Sound.begun : s.begun.cursor.OnText doc ∧ s.begun.cursor.pos ≤ doc.size ∧ s.begun.context.Plain := by
  obtain ⟨hc, _, hpos', _⟩ := (moves_begun (fun _ => true) s).onText hs.onText hpos
  exact ⟨hc, hpos', s.begun_eq.2.2 ▸ hs.plain⟩

section Kind

variable (hkind : DependsOnString kind)
include hkind

theorem Sound.inToken (keywords : Keywords) : s.begun.InToken keywords kind (s.turn keywords) := by
  obtain ⟨hc, hpos', hplain⟩ := hs.begun hpos
  exact inToken_stepInToken hc hpos' hplain hkind keywords

theorem Sound.moves_turn (keywords : Keywords) :
    Moves kind False s.cursor (s.turn keywords).cursor ∧ (s.turn keywords).context.Plain := by
  rcases (hs.inToken hpos hkind keywords).exists_leads with ⟨_, heq⟩ | ⟨u, hmoves, hleads⟩
  . rw [heq]
    exact ⟨moves_begun kind s, (hs.begun hpos).2.2⟩
  . exact ⟨((moves_begun kind s).trans hmoves).trans hleads.moves.1, hleads.moves.2⟩

end Kind

theorem Sound.turn (keywords : Keywords) : (s.turn keywords).Sound doc ∧ (s.turn keywords).cursor.pos ≤ doc.size := by
  obtain ⟨hmoves, hplain⟩ := hs.moves_turn hpos dependsOnString_isString keywords
  obtain ⟨hc, _, hpos', _⟩ := hmoves.onText hs.onText hpos
  exact ⟨⟨hc, hplain⟩, hpos'⟩

end Step

theorem storeLine_cases (s : Scan) :
    s.storeLine = s.cursor ∨ s.storeLine = s.cursor.setLineState s.cursor.line s.context.pack := by
  unfold storeLine
  split
  . exact .inr rfl
  . exact .inl rfl

theorem onText_storeLine (hc : s.cursor.OnText doc) : s.storeLine.OnText doc := by
  rcases s.storeLine_cases with h | h
  . rwa [h]
  . rw [h]
    exact hc.setLineState _ _

theorem storeLine_eq (s : Scan) : s.storeLine.pos = s.cursor.pos ∧ s.storeLine.width = s.cursor.width
    ∧ s.storeLine.state = s.cursor.state ∧ s.storeLine.pen.segment = s.cursor.pen.segment := by
  rcases s.storeLine_cases with h | h
  . rw [h]
    exact ⟨rfl, rfl, rfl, rfl⟩
  . rw [h]
    exact ⟨rfl, rfl, rfl, rfl⟩

section Step

variable (hs : s.Sound doc) (hpos : s.cursor.pos ≤ doc.size)
include hs hpos

/--
A step goes over the character at which it has ended and started tokens.
-/
theorem Sound.step_eq (keywords : Keywords) :
    (s.step keywords).cursor.pos = (s.turn keywords).cursor.pos + (s.turn keywords).cursor.width
      ∧ (s.step keywords).cursor.state = (s.turn keywords).cursor.state
      ∧ (s.step keywords).cursor.pen.segment = (s.turn keywords).cursor.pen.segment := by
  obtain ⟨ht, htpos⟩ := hs.turn hpos keywords
  obtain ⟨hstored, hwidth, hstate, hsegment⟩ := (s.turn keywords).storeLine_eq
  have hmore := (onText_storeLine ht.onText).more_iff.mpr (hstored ▸ htpos)
  rw [step_eq_turn]
  refine ⟨?_, (state_forward hmore).trans hstate, (congrArg Pen.segment (pen_forward hmore)).trans hsegment⟩
  exact (pos_forward hmore).trans (by rw [hstored, hwidth])

theorem Sound.step (keywords : Keywords) : (s.step keywords).Sound doc := by
  obtain ⟨ht, htpos⟩ := hs.turn hpos keywords
  rw [step_eq_turn]
  exact ⟨(onText_storeLine ht.onText).forward ((s.turn keywords).storeLine_eq.1 ▸ htpos), ht.plain⟩

theorem Sound.covers_of_turn (hcovers : (s.turn keywords).cursor.Covers kind known i) :
    (s.step keywords).cursor.Covers kind known i := by
  obtain ⟨ht, htpos⟩ := hs.turn hpos keywords
  have hstored : (s.turn keywords).storeLine.Covers kind known i := by
    rcases (s.turn keywords).storeLine_cases with h | h
    . rwa [h]
    . rw [h]
      exact hcovers.setLineState _ _
  rw [step_eq_turn]
  exact hstored.forward ((onText_storeLine ht.onText).more_iff.mpr ((s.turn keywords).storeLine_eq.1 ▸ htpos))

theorem Sound.covers_step (hkind : DependsOnString kind) (hi : i < doc.size) (hcovers : s.cursor.Covers kind known i)
    (keywords : Keywords) : (s.step keywords).cursor.Covers kind known i :=
  hs.covers_of_turn hpos (hcovers.moves hs.onText hpos hi (hs.moves_turn hpos hkind keywords).1)

/--
The bytes of the character that a step goes over belong to the token that is open behind it.
-/
theorem Sound.covers_behind (kind : Style → Bool) (hle : (s.turn keywords).cursor.pos ≤ i) (hlt : i < (s.step keywords).cursor.pos) :
    (s.step keywords).cursor.Covers kind (kind (s.turn keywords).cursor.state) i := by
  obtain ⟨ht, htpos⟩ := hs.turn hpos keywords
  obtain ⟨hstored, _, hstate, _⟩ := (s.turn keywords).storeLine_eq
  rw [step_eq_turn] at hlt ⊢
  rw [← hstate]
  exact Covers.of_forward kind (onText_storeLine ht.onText) (hstored ▸ htpos) (hstored ▸ hle) hlt

end Step

end Scan

/--
The scans that a pass over all of a text comes by.
-/
def Visits (keywords : Keywords) (doc : Document) : Scan → Prop :=
  Iterates (·.cursor.more) (Scan.step keywords) (.ofSpan (doc.spanOf 0 doc.size) doc)

theorem Scan.sound_begin (hdoc : doc.WellFormed) : (ofSpan (doc.spanOf 0 doc.size) doc).Sound doc := by
  obtain ⟨hc, _, hline, _⟩ := OnText.start hdoc (doc.styleBefore 0)
  refine ⟨hc, ?_⟩
  show (Context.before doc (Cursor.start doc ⟨0, doc.size, doc.styleBefore 0⟩).line).Plain
  rw [hline]
  exact ⟨nofun, nofun⟩

theorem Visits.sound (hdoc : doc.WellFormed) (h : Visits keywords doc s) : s.Sound doc :=
  h.invariant (Scan.Sound doc) (fun _ hmore ht => ht.step (ht.onText.more_iff.mp hmore) keywords) (Scan.sound_begin hdoc)

/--
What has been decided, a pass leaves.
-/
theorem Visits.kind_colour {session : Session} (hsession : session.lexer = lexer) (hdoc : doc.WellFormed)
    (h : Visits session.keywords doc s) (hkind : DependsOnString kind) (hi : i < doc.size) (hcovers : s.cursor.Covers kind known i) :
    kind ((session.colour doc 0 doc.size).styleAt i) = known := by
  have hsize := Nat.zero_lt_of_lt hi
  have hlaws := @lawfulPass False (fun _ => false) rfl session.keywords
  have hgood : (pass False (fun _ => false) session.keywords).Good
      ((pass False (fun _ => false) session.keywords).start doc 0 doc.size) :=
    good_pass session.keywords hdoc startsLine_zero hsize (.inr rfl) False.elim False.elim False.elim
  have hdrives : (pass False (fun _ => false) session.keywords).Drives session := drives_pass hsession
  obtain ⟨t, hrun, hend⟩ := hlaws.ends (hlaws.good_of_iterates h hgood)
  have hkept := hrun.invariant (fun u => u.Sound doc ∧ u.cursor.Covers kind known i) (by
    rintro u hmore ⟨hu, hucovers⟩
    have hpos := hu.onText.more_iff.mp hmore
    exact ⟨hu.step hpos session.keywords, hu.covers_step hpos hkind hi hucovers session.keywords⟩) ⟨h.sound hdoc, hcovers⟩
  rw [hdrives.colour_eq hdoc hsize (.inr rfl),
    hlaws.colour_eq hdoc startsLine_zero hsize (.inr rfl) hgood ⟨Iterates.trans h hrun, hend⟩]
  exact hkept.2.complete hkept.1.onText hi

end Highlight.Scss
