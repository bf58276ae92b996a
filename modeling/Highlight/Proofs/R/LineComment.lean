import Highlight.Proofs.Document.Lines
import Highlight.Proofs.R.Parts
import Highlight.Proofs.WholeText

/-!
Where the comments of R end: with their lines, except where a character of two bytes takes the terminator in.
-/

namespace Highlight.R

open Cursor LineIndex

variable {keywords : Keywords} {doc : Document} {c : Cursor} {known : Bool} {i line : Nat}

def isComment (style : Style) : Bool :=
  style == Style.comment

/--
A pass over all of a text comes by a cursor, and is not over there.
-/
def Visits (keywords : Keywords) (doc : Document) (c : Cursor) : Prop :=
  Iterates Cursor.more (step keywords) (start (doc.spanOf 0 doc.size) doc) c ∧ c.more = true

/--
Outside of a token, the pass sees at the byte `i` what starts a comment.
-/
def OpensComment (keywords : Keywords) (doc : Document) (i : Nat) : Prop :=
  ∃ c, Visits keywords doc c ∧ (leave keywords c).pos = i ∧ (leave keywords c).state = Style.default
    ∧ (leave keywords c).sees '#' = true

/--
The last character of a comment in front of the line start `i` has two bytes, and the second one is the first byte of the terminator.
-/
def RunsOver (keywords : Keywords) (doc : Document) (i : Nat) : Prop :=
  ∃ c, Visits keywords doc c ∧ c.state = Style.comment ∧ c.width = 2 ∧ c.pos + 1 = doc.lineEnd c.line
    ∧ doc.lineStart (c.line + 1) = i

section Step

theorem isComment_wordStyle (keywords : Keywords) (word : String) : isComment (wordStyle keywords word) = false := by
  unfold wordStyle
  split
  . rfl
  . split
    . rfl
    . split
      . rfl
      . rfl

theorem moves_leaveString {quote : Code} (hquote : quote.isInner = true) (c : Cursor) :
    Moves isComment False c (leaveString quote c) := by
  unfold leaveString
  split
  . next hbackslash =>
    split
    . exact .forward .refl (Code.isInner_of_eq (by decide) hbackslash)
    . exact .refl
  . split
    . next hclose => exact .setState (.forward .refl (Code.isInner_of_eq hquote hclose)) _
    . exact .refl

theorem moves_leave (hspecial : endsSpecial c = false) (keywords : Keywords) : Moves isComment False c (leave keywords c) := by
  unfold leave
  split
  . exact .setState .refl _
  . split
    . exact .refl
    . exact .setState .refl _
  . next hstate =>
    split
    . exact .refl
    . exact .setState (.changeState .refl _ (by rw [isComment_wordStyle, hstate]; rfl)) _
  . split
    . exact .setState .refl _
    . exact .refl
  . exact moves_leaveString (by decide) c
  . exact moves_leaveString (by decide) c
  . next hstate =>
    split
    . next hclose => exact .setState (.forward .refl (isInner_of_sees (by decide) hclose)) _
    . next hopen =>
      rw [endsSpecial, hstate, Bool.eq_false_iff.mpr hopen] at hspecial
      have hend : c.atLineEnd = false := hspecial
      rw [hend, if_neg Bool.false_ne_true]
      exact .refl
  . exact .refl

theorem moves_enter (c : Cursor) : Moves isComment False c (enter c) := by
  unfold enter
  split
  . split
    . exact .setState .refl _
    . exact .refl
  . exact .refl

theorem starting?_eq_comment (h : starting? c = some Style.comment) : c.sees '#' = true := by
  unfold starting? at h
  split at h
  . cases h
  . split at h
    . cases h
    . split at h
      . next hsign => exact hsign
      . split at h
        . cases h
        . split at h
          . cases h
          . split at h
            . cases h
            . split at h
              . cases h
              . cases h

theorem starting?_of_sign (h : c.sees '#' = true) : starting? c = some Style.comment := by
  have hcur : c.cur = 0x23 := beq_iff_eq.mp h
  unfold starting? startsNumber
  simp only [Cursor.sees, hcur]
  rfl

/--
What starts a comment is the sign, outside of a token.
-/
theorem isComment_enter (c : Cursor) :
    isComment (enter c).state = (isComment c.state || c.state == Style.default && c.sees '#') := by
  unfold enter
  split
  . next hstate =>
    rw [beq_iff_eq.mp hstate]
    split
    . next style hstyle =>
      show (style == Style.comment) = (false || true && c.sees '#')
      rw [Bool.false_or, Bool.true_and, Bool.eq_iff_iff, beq_iff_eq]
      constructor
      . rintro rfl
        exact starting?_eq_comment hstyle
      . intro hsign
        exact Option.some.inj (hstyle.symm.trans (starting?_of_sign hsign))
    . next hnone =>
      show isComment c.state = (false || true && c.sees '#')
      rw [beq_iff_eq.mp hstate]
      show false = c.sees '#'
      symm
      rw [Bool.eq_false_iff]
      intro hsign
      rw [starting?_of_sign hsign] at hnone
      cases hnone
  . next hstate => rw [Bool.eq_false_iff.mpr hstate, Bool.false_and, Bool.or_false]

theorem leave_of_comment (h : c.state = Style.comment) :
    leave keywords c = if c.seesLineEnd then c.setState Style.default else c := by
  unfold leave
  rw [h]
  rfl

theorem leave_of_default (h : c.state = Style.default) : leave keywords c = c := by
  unfold leave
  rw [h]
  rfl

theorem state_leaveString (quote : Code) (c : Cursor) :
    (leaveString quote c).state = c.state ∨ (leaveString quote c).state = Style.default := by
  have hforward : c.forward.state = c.state := by
    unfold forward
    split
    . rfl
    . rfl
  unfold leaveString
  split
  . split
    . exact .inl hforward
    . exact .inl rfl
  . split
    . exact .inr rfl
    . exact .inl rfl

/--
Ending a token opens no comment.
-/
theorem state_of_leave (h : (leave keywords c).state = Style.comment) : c.state = Style.comment ∧ leave keywords c = c := by
  have hstate : c.state = Style.comment := by
    have hstring {quote : Code} (h : (leaveString quote c).state = Style.comment) : c.state = Style.comment := by
      rcases state_leaveString quote c with hsame | hdefault
      . rw [← hsame, h]
      . rw [hdefault] at h
        cases h
    unfold leave at h
    split at h
    . cases h
    . split at h
      . exact h
      . cases h
    . split at h
      . exact h
      . cases h
    . next hstate => exact hstate
    . exact hstring h
    . exact hstring h
    . split at h
      . cases h
      . split at h
        . cases h
        . exact h
    . exact h
  rw [leave_of_comment hstate] at h ⊢
  split at h
  . cases h
  . next hends => exact ⟨hstate, if_neg hends⟩

section OnText

variable (hc : c.OnText doc)
include hc

/--
What a step makes of the bytes that it has come by.
-/
theorem covers_advance (hpos : c.pos ≤ doc.size) (hi : i < doc.size) (h : c.Covers isComment known i) (keywords : Keywords) :
    (advance keywords c).Covers isComment known i := by
  unfold advance
  split
  . next hspecial =>
    have hstate : isComment Style.specialUnclosed = isComment c.state := by
      simp only [endsSpecial, Bool.and_eq_true, beq_iff_eq] at hspecial
      rw [hspecial.1]
      rfl
    have hchange := hc.changeState Style.specialUnclosed
    rw [leave_of_endsSpecial keywords hspecial]
    exact ((h.changeState hstate).forward (hchange.more_iff.mpr hpos)).setState (hchange.forward hpos) hi _
  . next hspecial =>
    have hmoves := (moves_leave (Bool.eq_false_iff.mpr hspecial) keywords).trans (moves_enter _)
    obtain ⟨hc', _, hpos', _⟩ := hmoves.onText hc hpos
    exact (h.moves hc hpos hi hmoves).forward (hc'.more_iff.mpr hpos')

variable (hspecial : endsSpecial c = false)
include hspecial

/--
The byte behind the open token gets the style of comments if one goes on there, or starts there.
-/
theorem covers_behind (hpos : c.pos ≤ doc.size) (keywords : Keywords) :
    (advance keywords c).Covers isComment
      (isComment (leave keywords c).state || (leave keywords c).state == Style.default && (leave keywords c).sees '#')
      (leave keywords c).pos := by
  obtain ⟨hd, _, hpos', _⟩ := (moves_leave hspecial keywords).onText hc hpos
  obtain ⟨he, hle, hposE, _⟩ := (moves_enter (leave keywords c)).onText hd hpos'
  have henter : (enter (leave keywords c)).pos = (leave keywords c).pos := by
    unfold enter
    split
    . split
      . rfl
      . rfl
    . rfl
  have hmore := he.more_iff.mpr hposE
  have hwidth := he.settled.width_pos
  rw [advance, hspecial, if_neg Bool.false_ne_true, step, ← isComment_enter, ← henter]
  exact .of_forward isComment he hposE (Nat.le_refl _) (by rw [pos_forward hmore]; omega)

omit hspecial in
/--
A string goes on, or takes in the byte.
-/
theorem covers_leaveString (hpos : c.pos ≤ doc.size) {quote : Code} (hquote : quote.isInner = true) (hstate : isComment c.state = false) :
    leaveString quote c = c ∨ (leaveString quote c).Covers isComment false c.pos := by
  have hcovers (hcur : c.cur.isInner = true) : c.forward.Covers isComment false c.pos ∧ c.pos < doc.size := by
    obtain ⟨hlt, hforward⟩ := hc.pos_forward_of_isInner hcur
    refine ⟨?_, hlt⟩
    rw [← hstate]
    exact .of_forward isComment hc hpos (Nat.le_refl _) (by omega)
  unfold leaveString
  split
  . next hbackslash =>
    split
    . exact .inr (hcovers (Code.isInner_of_eq (by decide) hbackslash)).1
    . exact .inl rfl
  . split
    . next hclose =>
      obtain ⟨hforward, hlt⟩ := hcovers (Code.isInner_of_eq hquote hclose)
      exact .inr (hforward.setState (hc.forward hpos) hlt _)
    . exact .inl rfl

/--
At a line start, the token that goes on takes in the first byte only if it is a string.
-/
theorem covers_first (hlt : c.pos < doc.size) (hloose : loose c.state = true) (keywords : Keywords) :
    (leave keywords c).pos = c.pos ∨ (advance keywords c).Covers isComment false c.pos := by
  have hpos := Nat.le_of_lt hlt
  have hstring {quote : Code} (hquote : quote.isInner = true) (hstate : isComment c.state = false)
      (hleave : leave keywords c = leaveString quote c) :
      (leave keywords c).pos = c.pos ∨ (advance keywords c).Covers isComment false c.pos := by
    obtain ⟨hd, _, hposD, _⟩ := (moves_leave hspecial keywords).onText hc hpos
    rcases covers_leaveString hc hpos hquote hstate with hsame | hcovers
    . rw [hleave, hsame]
      exact .inl rfl
    . rw [← hleave] at hcovers
      have hmoves := moves_enter (leave keywords c)
      obtain ⟨he, _, hposE, _⟩ := hmoves.onText hd hposD
      rw [advance, hspecial]
      exact .inr ((hcovers.moves hd hposD hlt hmoves).forward (he.more_iff.mpr hposE))
  simp only [loose, Bool.or_eq_true, beq_iff_eq] at hloose
  rcases hloose with ((hstate | hstate) | hstate) | hstate
  . rw [leave_of_default hstate]
    exact .inl rfl
  . refine hstring (show Code.quote.isInner = true by decide) (by rw [hstate]; rfl) ?_
    unfold leave
    rw [hstate]
    rfl
  . refine hstring (show Code.apostrophe.isInner = true by decide) (by rw [hstate]; rfl) ?_
    unfold leave
    rw [hstate]
    rfl
  . rw [leave_of_comment hstate]
    split
    . exact .inl rfl
    . exact .inl rfl

omit hspecial in
/--
A comment is open behind a step if it goes on, or if the step has seen the sign.
-/
theorem advance_into_comment (hpos : c.pos ≤ doc.size) (h : (advance keywords c).state = Style.comment) :
    c.state = Style.comment ∧ c.seesLineEnd = false ∧ advance keywords c = c.forward
      ∨ ∃ pos, c.pos ≤ pos ∧ doc.byteAt? pos = some '#'.toUInt8 ∧ (advance keywords c).pos = pos + 1 := by
  cases hspecial : endsSpecial c with
  | true =>
    rw [advance, if_pos hspecial, leave_of_endsSpecial keywords hspecial] at h
    cases h
  | false =>
    obtain ⟨hd, hle, hposD, _⟩ := (moves_leave hspecial keywords).onText hc hpos
    have hstep : advance keywords c = (enter (leave keywords c)).forward := by
      rw [advance, hspecial]
      rfl
    have hcomment := isComment_enter (leave keywords c)
    rw [hstep] at h ⊢
    obtain ⟨he, _, hposE, _⟩ := (moves_enter (leave keywords c)).onText hd hposD
    rw [state_forward (he.more_iff.mpr hposE)] at h
    rw [h, show isComment Style.comment = true from rfl, eq_comm, Bool.or_eq_true, Bool.and_eq_true] at hcomment
    rcases hcomment with hgoes | ⟨hdefault, hsign⟩
    . obtain ⟨hstate, hleave⟩ := state_of_leave (beq_iff_eq.mp hgoes)
      have henter : enter c = c := by
        rw [enter, hstate]
        rfl
      have hends := @leave_of_comment keywords c hstate
      rw [hleave] at hends
      refine .inl ⟨hstate, ?_, by rw [hleave, henter]⟩
      rw [Bool.eq_false_iff]
      intro hline
      rw [if_pos hline] at hends
      rw [hends] at hstate
      cases hstate
    . have henter : enter (leave keywords c) = (leave keywords c).setState Style.comment := by
        rw [enter, if_pos hdefault, starting?_of_sign hsign]
      obtain ⟨_, hforward⟩ := (hd.setState Style.comment).pos_forward_of_isInner (isInner_of_sees (by decide) hsign)
      rw [henter]
      exact .inr ⟨_, hle, (hd.sees_iff (x := '#') (by decide)).mp hsign, hforward⟩

omit hspecial in
/--
A character over an ASCII byte that is not its first one has two bytes.
-/
theorem width_of_over_ascii {b : UInt8} (hlt : c.pos < i) (hover : i < c.pos + c.width) (hb : doc.byteAt? i = some b)
    (hascii : b.toNat < 0x80) : c.width = 2 ∧ c.pos + 1 = i := by
  have hle := doc.encoding.decodeAt_le_of_ascii (Nat.le_of_lt hlt) hb hascii
  have hwidth : c.width = (doc.encoding.decodeAt doc.text c.pos).2 := by
    rw [hc.settled.width_eq, hc.decodeAt_eq]
    rfl
  rw [← hwidth] at hle
  rcases doc.encoding.decodeAt_cases doc.text c.pos with
    ⟨_, heq⟩ | ⟨_, _, heq⟩ | ⟨value, width, _, hread, heq⟩ | ⟨_, _, _, _, _, _, _, heq⟩
  . rw [heq] at hwidth
    omega
  . rw [heq] at hwidth
    omega
  . obtain ⟨b', hb', hhigh⟩ := (Utf8.decodeAt?_bytes hread).2 (i - c.pos) (by rw [heq] at hwidth; dsimp at hwidth; omega)
    rw [show c.pos + (i - c.pos) = i by omega] at hb'
    obtain rfl : b = b' := Option.some.inj (hb.symm.trans hb')
    omega
  . rw [heq] at hwidth
    dsimp at hwidth
    omega

end OnText

end Step

/--
The pass comes by a cursor between two of its steps, or where a special operator ends with its line.
-/
def Comes (keywords : Keywords) (doc : Document) : Cursor → Prop :=
  Iterates Cursor.more (advance keywords) (start (doc.spanOf 0 doc.size) doc)

section Whole

variable (hdoc : doc.WellFormed) (hsize : 0 < doc.size)
include hdoc hsize

theorem Comes.onText (h : Comes keywords doc c) : c.OnText doc :=
  (forward_colouring keywords).onText hdoc hsize (good_start keywords hdoc hsize) h

/--
What a cursor has decided about a byte stays.
-/
theorem Comes.isComment_colour {session : Session} (hsession : session.lexer = lexer) (h : Comes session.keywords doc c)
    (hi : i < doc.size) (hcovers : c.Covers isComment known i) :
    isComment ((session.colour doc 0 doc.size).styleAt i) = known := by
  have hlaws := (forward_colouring session.keywords).toLawfulPass
  have hgood := good_start session.keywords hdoc hsize
  have hdrives : (colouring session.keywords).Drives session := drives_colouring hsession
  obtain ⟨d, hrun, hend⟩ := hlaws.ends (hlaws.good_of_iterates h hgood)
  have hcomes : Comes session.keywords doc d := h.trans hrun
  have hcovers' := (hrun.invariant (fun d => Comes session.keywords doc d ∧ d.Covers isComment known i) (by
    rintro d hmore ⟨hd, hdcovers⟩
    have hdtext := hd.onText hdoc hsize
    exact ⟨hd.tail hmore, covers_advance hdtext (hdtext.more_iff.mp hmore) hi hdcovers session.keywords⟩) ⟨h, hcovers⟩).2
  rw [hdrives.colour_eq hdoc hsize (.inr rfl), hlaws.colour_eq hdoc startsLine_zero hsize (.inr rfl) hgood ⟨hcomes, hend⟩]
  exact hcovers'.complete (hcomes.onText hdoc hsize) hi

end Whole

/--
Which cursors are come by: those between two steps, and one for each special operator that ends with its line.
-/
theorem Comes.visits (h : Comes keywords doc c) (hmore : c.more = true) :
    Visits keywords doc c ∨ ∃ c', Visits keywords doc c' ∧ endsSpecial c' = true ∧ c = leave keywords c' := by
  rcases comesBy_of_iterates h with hrun | ⟨c', hrun, hmore', hspecial, heq⟩
  . exact .inl ⟨hrun, hmore⟩
  . exact .inr ⟨c', ⟨hrun, hmore'⟩, hspecial, heq⟩

theorem Visits.comes (h : Visits keywords doc c) : Comes keywords doc c := by
  obtain ⟨hrun, hmore⟩ := h
  have hinvariant := hrun.invariant (fun c => Comes keywords doc c ∨ c.more = false) (by
    rintro c hmore (hc | hend)
    . cases hspecial : endsSpecial c with
      | false =>
        have hstep : step keywords c = advance keywords c := by
          rw [advance, hspecial]
          rfl
        rw [hstep]
        exact .inl (hc.tail hmore)
      | true =>
        have hleave : advance keywords c = leave keywords c := by rw [advance, if_pos hspecial]
        cases hmore' : (leave keywords c).more with
        | false => exact .inr (complete_step_of_end keywords hmore').1
        | true =>
          rw [step_of_endsSpecial keywords hspecial]
          exact .inl ((hleave ▸ hc.tail hmore).tail hmore')
    . rw [hmore] at hend
      cases hend) (.inl (.refl _))
  rcases hinvariant with hcomes | hend
  . exact hcomes
  . rw [hmore] at hend
    cases hend

/--
Behind a special operator that ends with its line, no token is open.
-/
theorem Comes.visits_of_state (h : Comes keywords doc c) (hmore : c.more = true) (hstate : c.state ≠ Style.default) :
    Visits keywords doc c := by
  rcases h.visits hmore with hvisits | ⟨c', _, hspecial, rfl⟩
  . exact hvisits
  . rw [leave_of_endsSpecial keywords hspecial] at hstate
    exact absurd rfl hstate

section Line

variable (hdoc : doc.WellFormed) (hline : line + 1 < doc.lineCount)
include hdoc hline

/--
A comment that is open at a line start runs over the terminator in front.
-/
theorem Comes.runsOver (h : Comes keywords doc c) (hpos : c.pos = doc.lineStart (line + 1)) (hstate : c.state = Style.comment) :
    RunsOver keywords doc (doc.lineStart (line + 1)) := by
  obtain ⟨hle, hlt, hbytes⟩ := hdoc.lineEnd_spec hline
  have hstop := hdoc.lineStart_le_size (line + 1)
  have hsize : 0 < doc.size := by omega
  have hstart : startsLine doc.text (doc.lineStart line) = true := (hdoc.startsLine_lineStart (Nat.lt_of_succ_lt hline)).1
  have hnext : startsLine doc.text (doc.lineStart (line + 1)) = true := (hdoc.startsLine_lineStart hline).1
  have hinvariant := h.invariant (fun c => Comes keywords doc c ∧ (doc.lineEnd line < c.pos → c.pos ≤ doc.lineStart (line + 1) →
      c.state = Style.comment → RunsOver keywords doc (doc.lineStart (line + 1)))) (by
    rintro c hmore ⟨hcomes, ih⟩
    refine ⟨hcomes.tail hmore, fun hbehind hfront hcomment => ?_⟩
    have hc := hcomes.onText hdoc hsize
    have hpos := hc.more_iff.mp hmore
    rcases advance_into_comment hc hpos hcomment with ⟨hstate, hends, hadvance⟩ | ⟨pos, _, hsign, hadvance⟩
    . rw [hadvance, pos_forward hmore] at hbehind hfront
      have hwidth := hc.settled.width_pos
      rcases Nat.lt_or_ge (doc.lineEnd line) c.pos with hover | hinside
      . exact ih hover (by omega) hstate
      -- The character goes over the end of the line, which is not where it stands.
      . have hfirst : doc.lineStart line ≤ c.pos := by
          apply Nat.le_of_not_lt
          intro hbefore
          have := hc.settled.pos_add_width_le_of_lt (.inl (.inl (by rwa [hc.source.text]))) hbefore
          omega
        have hlineOf : c.line = line := by
          rw [hc.settled.line, hc.source.lineOf, hc.size_eq, if_neg (by omega), Nat.add_zero]
          exact (hdoc.lineOf_eq_iff (by omega)).mpr ⟨hfirst, by omega⟩
        have hne : c.pos ≠ doc.lineEnd line := by
          have hends : (c.pos == c.doc.lineEnd c.line) = false := hends
          rw [beq_eq_false_iff_ne, hlineOf, Document.lineEnd, hc.source.lines, hc.source.text] at hends
          exact hends
        obtain ⟨b, hb, hascii⟩ : ∃ b : UInt8, doc.byteAt? (doc.lineEnd line) = some b ∧ b.toNat < 0x80 := by
          rcases hbytes _ (Nat.le_refl _) hlt with hfeed | hreturn
          . exact ⟨_, hfeed, by decide⟩
          . exact ⟨_, hreturn, by decide⟩
        obtain ⟨htwo, hat⟩ := width_of_over_ascii hc (by omega) hbehind hb hascii
        exact ⟨c, hcomes.visits_of_state hmore (by rw [hstate]; decide), hstate, htwo, by rw [hlineOf, hat], by rw [hlineOf]⟩
    . rcases hbytes pos (by omega) (by omega) with hfeed | hreturn
      . exact absurd (hsign.symm.trans hfeed) (by decide)
      . exact absurd (hsign.symm.trans hreturn) (by decide)) ⟨.refl _, fun hbehind => ?_⟩
  . exact hinvariant.2 (by omega) (by omega) hstate
  . rw [show (start (doc.spanOf 0 doc.size) doc).pos = 0 from by
      rw [start_eq]
      exact Cursor.pos_start hdoc startsLine_zero hsize (.inr rfl)] at hbehind
    omega

end Line

section First

variable (hdoc : doc.WellFormed) (hlt : i < doc.size)
include hdoc hlt

theorem exists_first (keywords : Keywords) (hstart : startsLine doc.text i = true) :
    ∃ c, Comes keywords doc c ∧ c.pos = i ∧ loose c.state = true ∧ (i = 0 → c.state = Style.default) := by
  rcases Nat.eq_zero_or_pos i with rfl | hpos
  . have hstate : (start (doc.spanOf 0 doc.size) doc).state = Style.default := by
      rw [start_eq]
      show carried (Cursor.start doc (doc.spanOf 0 doc.size)).state = Style.default
      rw [Cursor.state_start hdoc startsLine_zero hlt (.inr rfl)]
      rfl
    refine ⟨_, .refl _, ?_, by rw [hstate]; rfl, fun _ => hstate⟩
    rw [start_eq]
    exact Cursor.pos_start hdoc startsLine_zero hlt (.inr rfl)
  . obtain ⟨c, hrun, hat, hline, hkept, _⟩ := exists_lineStart keywords hdoc hpos hstart
    exact ⟨c, hrun, hat, hkept.loose trivial hline, fun hzero => absurd hzero (by omega)⟩

/--
What runs over a terminator is still open behind it.
-/
theorem RunsOver.exists_comes (h : RunsOver keywords doc i) : ∃ c, Comes keywords doc c ∧ c.pos = i ∧ c.state = Style.comment := by
  obtain ⟨c, hvisits, hstate, hwidth, hend, rfl⟩ := h
  have hsize := Nat.zero_lt_of_lt hlt
  have hline := hdoc.lt_lineCount hlt
  obtain ⟨hle, hlast, hbytes⟩ := hdoc.lineEnd_spec hline
  have hreach := doc.lineStart_succ_le_lineEnd c.line
  have hstop := hdoc.lineStart_le_size (c.line + 1)
  have hcomes := hvisits.comes
  have hgoes {c : Cursor} (hc : c.OnText doc) (hmore : c.more = true) (hstate : c.state = Style.comment)
      (hends : c.seesLineEnd = false) : advance keywords c = c.forward := by
    have hspecial : endsSpecial c = false := by
      rw [endsSpecial, hstate]
      rfl
    rw [advance, hspecial, if_neg Bool.false_ne_true, step, leave_of_comment hstate, hends, if_neg Bool.false_ne_true, enter, hstate]
    rfl
  have hsees {c : Cursor} {line : Nat} (hc : c.OnText doc) (hat : c.line = line) (hne : c.pos ≠ doc.lineEnd line) :
      c.seesLineEnd = false := by
    rw [seesLineEnd, beq_eq_false_iff_ne, hat, Document.lineEnd, hc.source.lines, hc.source.text]
    exact hne
  have hc := hcomes.onText hdoc hsize
  have hadvance := hgoes hc hvisits.2 hstate (hsees hc rfl (by omega))
  have hnext : Comes keywords doc c.forward := hadvance ▸ hcomes.tail hvisits.2
  have hpos : c.forward.pos = doc.lineEnd c.line + 1 := by
    rw [pos_forward hvisits.2, hwidth]
    omega
  have hstate' : c.forward.state = Style.comment := (state_forward hvisits.2).trans hstate
  rcases Nat.eq_or_lt_of_le (Nat.succ_le_of_lt hlast) with heq | hinside
  . exact ⟨_, hnext, hpos.trans heq, hstate'⟩
  -- There is one more byte of the terminator.
  . have hc' := hnext.onText hdoc hsize
    have hmore : c.forward.more = true := hc'.more_iff.mpr (by omega)
    have hat : c.forward.line = c.line := by
      rw [hc'.settled.line, hc'.source.lineOf, hc'.size_eq, if_neg (by omega), Nat.add_zero]
      exact (hdoc.lineOf_eq_iff (by omega)).mpr ⟨by omega, by omega⟩
    have hadvance' := hgoes hc' hmore hstate' (hsees hc' hat (by omega))
    obtain ⟨b, hb, hascii⟩ : ∃ b : UInt8, doc.text[c.forward.pos]? = some b ∧ b.toNat < 0x80 := by
      rcases hbytes c.forward.pos (by omega) (by omega) with hfeed | hreturn
      . exact ⟨_, hfeed, by decide⟩
      . exact ⟨_, hreturn, by decide⟩
    have hone : c.forward.width = 1 := by
      rw [hc'.settled.width_eq, hc'.decodeAt_eq, Document.decodeAt, doc.encoding.decodeAt_of_ascii hb hascii]
    refine ⟨_, hadvance' ▸ hnext.tail hmore, ?_, (state_forward hmore).trans hstate'⟩
    rw [pos_forward hmore, hone]
    omega

end First

/--
At the start of a line, the pass sees a line end if the line is empty.
-/
theorem Comes.seesLineEnd_iff (hdoc : doc.WellFormed) (hlt : doc.lineStart line < doc.size) (h : Comes keywords doc c)
    (hpos : c.pos = doc.lineStart line) : c.seesLineEnd = true ↔ doc.lineStart line = doc.lineEnd line := by
  have hc := h.onText hdoc (Nat.zero_lt_of_lt hlt)
  have hlineOf := (hdoc.startsLine_lineStart (hdoc.lt_lineCount hlt)).2
  have hat : c.line = line := by
    rw [hc.settled.line, hc.source.lineOf, hc.size_eq, if_neg (by omega), Nat.add_zero, hpos, hlineOf]
  rw [seesLineEnd, beq_iff_eq, hat, hpos, Document.lineEnd, hc.source.lines, hc.source.text]
  rfl

/--
The sign of a comment that is seen behind what a special operator leaves is seen when the operator is left too.
-/
theorem Comes.opensComment (h : Comes keywords doc c) (hmore : c.more = true) (hdefault : (leave keywords c).state = Style.default)
    (hsign : (leave keywords c).sees '#' = true) : OpensComment keywords doc (leave keywords c).pos := by
  rcases h.visits hmore with hvisits | ⟨c', hvisits, hspecial, rfl⟩
  . exact ⟨c, hvisits, rfl, hdefault, hsign⟩
  . have hstate : (leave keywords c').state = Style.default := by
      rw [leave_of_endsSpecial _ hspecial]
      rfl
    rw [leave_of_default hstate] at hsign ⊢
    exact ⟨c', hvisits, rfl, hstate, hsign⟩

section Colour

variable {session : Session} (hsession : session.lexer = lexer) (hdoc : doc.WellFormed)
include hsession hdoc

/--
The first byte that a step goes over gets the style of comments if one goes on there, or starts there.
-/
theorem Comes.isComment_behind (h : Comes session.keywords doc c) (hmore : c.more = true) (hspecial : endsSpecial c = false)
    (hlt : (leave session.keywords c).pos < doc.size) :
    isComment ((session.colour doc 0 doc.size).styleAt (leave session.keywords c).pos)
      = (isComment (leave session.keywords c).state
        || (leave session.keywords c).state == Style.default && (leave session.keywords c).sees '#') := by
  have hsize := Nat.zero_lt_of_lt hlt
  have hc := h.onText hdoc hsize
  have hnext : Comes session.keywords doc (advance session.keywords c) := h.tail hmore
  exact hnext.isComment_colour hdoc hsize hsession hlt (covers_behind hc hspecial (hc.more_iff.mp hmore) session.keywords)

theorem OpensComment.isComment_colour (h : OpensComment session.keywords doc i) (hlt : i < doc.size) :
    isComment ((session.colour doc 0 doc.size).styleAt i) = true := by
  obtain ⟨c, hvisits, rfl, hstate, hsign⟩ := h
  have hsize := Nat.zero_lt_of_lt hlt
  cases hspecial : endsSpecial c with
  | false =>
    rw [hvisits.comes.isComment_behind hsession hdoc hvisits.2 hspecial hlt, hstate, hsign]
    rfl
  | true =>
    have hnext : Comes session.keywords doc (leave session.keywords c) := by
      have hadvance : advance session.keywords c = leave session.keywords c := by rw [advance, if_pos hspecial]
      exact hadvance ▸ hvisits.comes.tail hvisits.2
    have hmore := (hnext.onText hdoc hsize).more_iff.mpr (Nat.le_of_lt hlt)
    have hleave : leave session.keywords (leave session.keywords c) = leave session.keywords c := leave_of_default hstate
    have hother : endsSpecial (leave session.keywords c) = false := by
      rw [endsSpecial, hstate]
      rfl
    have hbehind := hnext.isComment_behind hsession hdoc hmore hother (by rw [hleave]; exact hlt)
    rw [hleave, hstate, hsign] at hbehind
    exact hbehind

/--
A line that is not empty starts with the style of comments if a comment runs over the terminator in front of it.
-/
theorem RunsOver.isComment_colour (h : RunsOver session.keywords doc (doc.lineStart line)) (hlt : doc.lineStart line < doc.size)
    (hne : doc.lineStart line ≠ doc.lineEnd line) :
    isComment ((session.colour doc 0 doc.size).styleAt (doc.lineStart line)) = true := by
  obtain ⟨c, hcomes, hpos, hstate⟩ := h.exists_comes hdoc hlt
  have hsize := Nat.zero_lt_of_lt hlt
  have hmore : c.more = true := (hcomes.onText hdoc hsize).more_iff.mpr (by omega)
  have hleave : leave session.keywords c = c := by
    rw [leave_of_comment hstate, if_neg]
    intro hsees
    exact hne ((hcomes.seesLineEnd_iff hdoc hlt hpos).mp hsees)
  have hspecial : endsSpecial c = false := by
    rw [endsSpecial, hstate]
    rfl
  have hbehind := hcomes.isComment_behind hsession hdoc hmore hspecial (by rw [hleave, hpos]; exact hlt)
  rw [hleave, hpos, hstate] at hbehind
  exact hbehind

/--
A comment that the first byte of a line belongs to opens there, or comes over the terminator in front of the line.
-/
theorem opensComment_or_runsOver (hlt : doc.lineStart line < doc.size)
    (hcomment : isComment ((session.colour doc 0 doc.size).styleAt (doc.lineStart line)) = true) :
    OpensComment session.keywords doc (doc.lineStart line)
      ∨ RunsOver session.keywords doc (doc.lineStart line) ∧ doc.lineStart line ≠ doc.lineEnd line := by
  have hsize := Nat.zero_lt_of_lt hlt
  have hline := hdoc.lt_lineCount hlt
  have hstart := (hdoc.startsLine_lineStart hline).1
  obtain ⟨c, hcomes, hpos, hloose, hfirst⟩ := exists_first hdoc hlt session.keywords hstart
  have hc := hcomes.onText hdoc hsize
  have hmore : c.more = true := hc.more_iff.mpr (by omega)
  have hspecial : endsSpecial c = false := by
    rw [endsSpecial, Bool.and_eq_false_iff]
    left
    rw [beq_eq_false_iff_ne]
    intro hstate
    rw [hstate] at hloose
    cases hloose
  rcases covers_first hc hspecial (by omega) hloose session.keywords with hleft | hcovers
  . have hbehind := hcomes.isComment_behind hsession hdoc hmore hspecial (by omega)
    rw [hleft, hpos, hcomment, eq_comm, Bool.or_eq_true, Bool.and_eq_true] at hbehind
    rcases hbehind with hgoes | ⟨hdefault, hsign⟩
    . obtain ⟨hstate, hsame⟩ := state_of_leave (beq_iff_eq.mp hgoes)
      right
      constructor
      . cases line with
        | zero =>
          have hzero := hdoc.lineStart_lineOf 0
          rw [hdoc.lineOf_zero, lineFloor_of_startsLine startsLine_zero] at hzero
          rw [hfirst hzero] at hstate
          cases hstate
        | succ above => exact hcomes.runsOver hdoc hline hpos hstate
      . intro hempty
        rw [leave_of_comment hstate, if_pos ((hcomes.seesLineEnd_iff hdoc hlt hpos).mpr hempty)] at hsame
        rw [← hsame] at hstate
        cases hstate
    . left
      rw [← hpos, ← hleft]
      exact hcomes.opensComment hmore (beq_iff_eq.mp hdefault) hsign
  . have hnext : Comes session.keywords doc (advance session.keywords c) := hcomes.tail hmore
    have hnot := hnext.isComment_colour hdoc hsize hsession (by omega) hcovers
    rw [hpos, hcomment] at hnot
    cases hnot

/--
The first byte of a line has the style of comments if a comment opens there, and if one runs over the terminator in front of it
and the line is not empty.
-/
theorem isComment_lineStart_iff (hlt : doc.lineStart line < doc.size) :
    isComment ((session.colour doc 0 doc.size).styleAt (doc.lineStart line)) = true
      ↔ OpensComment session.keywords doc (doc.lineStart line)
        ∨ RunsOver session.keywords doc (doc.lineStart line) ∧ doc.lineStart line ≠ doc.lineEnd line := by
  constructor
  . exact opensComment_or_runsOver hsession hdoc hlt
  . rintro (hopens | ⟨hruns, hne⟩)
    . exact hopens.isComment_colour hsession hdoc hlt
    . exact hruns.isComment_colour hsession hdoc hlt hne

end Colour

end Highlight.R
