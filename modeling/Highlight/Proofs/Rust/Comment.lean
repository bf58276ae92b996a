import Highlight.Proofs.Rust.Moves
import Highlight.Proofs.WholeText

/-!
Where a stream comment of Rust ends in a pass from the start of the text: at its first terminator, however many
documentation keywords stand in it. Up to there, all bytes get the styles of such a comment.
-/

namespace Highlight

namespace Rust

open Cursor LineIndex

variable {doc : Document} {keywords : Keywords} {s t : Scan} {q e : Nat}

/--
The first terminator behind the two bytes at `q` that open a stream comment.
-/
structure FirstTerminator (doc : Document) (q e : Nat) : Prop where
  le : q + 2 ≤ e
  terminates : doc.matchesAt e "*/" = true
  first : ∀ e', q + 2 ≤ e' → e' < e → doc.matchesAt e' "*/" = false

namespace Scan

/--
In its next step, the scan is outside of a token at `q`.
-/
structure Between (keywords : Keywords) (q : Nat) (s : Scan) : Prop where
  more : s.cursor.more = true
  pos : (s.left keywords).cursor.pos = q
  state : (s.left keywords).cursor.state = Style.default

/--
A stream comment is open, or a keyword in one.
-/
inductive InComment (s : Scan) : Prop where
  | comment : s.cursor.state = Style.comment → InComment s
  | commentDoc : s.cursor.state = Style.commentDoc → InComment s
  | keyword : s.cursor.state = Style.docKeyword → s.docComment = Style.commentDoc → InComment s

/--
A scan between two steps in the stream comment that opens at `q`.
-/
structure Commented (doc : Document) (q : Nat) (s : Scan) : Prop where
  sound : s.Sound doc
  inComment : s.InComment
  covers : ∀ i, q ≤ i → i < s.cursor.pos → i < doc.size → s.cursor.Covers isStreamComment true i

theorem matchesAt_terminator (doc : Document) (e : Nat) :
    doc.matchesAt e "*/" = true ↔ doc.byteAt? e = some '*'.toUInt8 ∧ doc.byteAt? (e + 1) = some '/'.toUInt8 :=
  doc.holdsAt_pair e _ _

theorem matchesAt_opener (doc : Document) (q : Nat) :
    doc.matchesAt q "/*" = true ↔ doc.byteAt? q = some '/'.toUInt8 ∧ doc.byteAt? (q + 1) = some '*'.toUInt8 :=
  doc.holdsAt_pair q _ _

theorem seesPair_terminator {c : Cursor} (hc : c.OnText doc) : c.seesPair '*' '/' = doc.matchesAt c.pos "*/" := by
  rw [Bool.eq_iff_iff, matchesAt_terminator, hc.seesPair_iff (by decide) (by decide)]

theorem InComment.isStream (h : s.InComment) : isStreamComment s.cursor.state = true := by
  cases h with
  | comment hstate => rw [hstate]; rfl
  | commentDoc hstate => rw [hstate]; rfl
  | keyword hstate _ => rw [hstate]; rfl

theorem InComment.storing (h : s.InComment) : s.storing.InComment := by
  have hstate := s.state_storing
  have hdoc := s.docComment_storing
  cases h with
  | comment h => exact .comment (hstate.trans h)
  | commentDoc h => exact .commentDoc (hstate.trans h)
  | keyword h h' => exact .keyword (hstate.trans h) (hdoc.trans h')

theorem pos_storing (s : Scan) : s.storing.cursor.pos = s.cursor.pos := by
  rcases s.storing_eq with h | h
  . rw [h]
  . rw [h]
    rfl

section Leave

variable {r : Scan}

theorem leave_of_comment (h : r.cursor.state = Style.comment) :
    r.leave keywords = if r.cursor.seesPair '*' '/' then r.withCursor (closeComment r.cursor) else r := by
  unfold leave
  dsimp only
  rw [h]
  rfl

theorem leave_of_commentDoc (h : r.cursor.state = Style.commentDoc) :
    r.leave keywords = if r.cursor.seesPair '*' '/' then r.withCursor (closeComment r.cursor)
      else if startsDocKeyword "*" r.cursor then
        { r with docComment := Style.commentDoc, cursor := r.cursor.setState Style.docKeyword }
      else r := by
  unfold leave
  dsimp only
  rw [h]
  rfl

theorem leave_of_docKeyword (h : r.cursor.state = Style.docKeyword) : r.leave keywords = r.leaveDocKeyword keywords := by
  unfold leave
  dsimp only
  rw [h]
  rfl

/--
Where it does not see the terminator, the comment goes on.
-/
theorem InComment.leave (h : r.InComment) (hpair : r.cursor.seesPair '*' '/' = false) (keywords : Keywords) :
    (r.leave keywords).InComment ∧ (r.leave keywords).cursor.pos = r.cursor.pos := by
  cases h with
  | comment hstate =>
    rw [leave_of_comment hstate, hpair]
    exact ⟨.comment hstate, rfl⟩
  | commentDoc hstate =>
    rw [leave_of_commentDoc hstate, hpair, if_neg Bool.false_ne_true]
    split
    . exact ⟨.keyword rfl rfl, rfl⟩
    . exact ⟨.commentDoc hstate, rfl⟩
  | keyword hstate hdoc =>
    rw [leave_of_docKeyword hstate]
    unfold leaveDocKeyword
    dsimp only
    rw [hpair, Bool.and_false, if_neg Bool.false_ne_true]
    split
    . exact ⟨.keyword hstate hdoc, rfl⟩
    . split
      . exact ⟨.commentDoc hdoc, rfl⟩
      . exact ⟨.commentDoc hdoc, rfl⟩

/--
At the terminator, it ends behind that.
-/
theorem InComment.close (h : r.InComment) (hpair : r.cursor.seesPair '*' '/' = true) (keywords : Keywords) :
    ∃ style, isStreamComment style = true ∧ (r.leave keywords).cursor = closeComment (r.cursor.changeState style) := by
  cases h with
  | comment hstate =>
    rw [leave_of_comment hstate, if_pos hpair]
    exact ⟨r.cursor.state, by rw [hstate]; rfl, rfl⟩
  | commentDoc hstate =>
    rw [leave_of_commentDoc hstate, if_pos hpair]
    exact ⟨r.cursor.state, by rw [hstate]; rfl, rfl⟩
  | keyword hstate hdoc =>
    have hclose : (r.docComment == Style.commentDoc && r.cursor.seesPair '*' '/') = true := by
      rw [hdoc, hpair]
      rfl
    rw [leave_of_docKeyword hstate]
    unfold leaveDocKeyword
    dsimp only
    rw [if_pos hclose]
    exact ⟨Style.docKeywordError, rfl, rfl⟩

end Leave

/--
The two bytes that the comment is closed with belong to it.
-/
theorem covers_closeComment {c : Cursor} (hc : c.OnText doc) (hpos : c.pos ≤ doc.size) (hpair : c.seesPair '*' '/' = true)
    (hstate : isStreamComment c.state = true) : (closeComment c).pos = c.pos + 2 ∧ (closeComment c).state = Style.default
      ∧ ∀ i, c.pos ≤ i → i < c.pos + 2 → (closeComment c).Covers isStreamComment true i := by
  obtain ⟨hforward, hfirst, hpos', hbehind⟩ := hc.pos_forward_of_seesPair hpos (by decide) (by decide) hpair
  refine ⟨hbehind, rfl, ?_⟩
  intro i hle hi
  have hcovers := Covers.of_seesPair isStreamComment hc hpos (by decide) (by decide) hpair hle hi
  rw [hstate] at hcovers
  exact hcovers.setState (hforward.forward (Nat.le_of_lt hpos')) (by omega) Style.default

section Commented

variable (h : s.Commented doc q) (hpos : s.cursor.pos ≤ doc.size)
include h hpos

/--
Another character of the comment.
-/
theorem Commented.step (hgo : doc.matchesAt s.cursor.pos "*/" = false) (keywords : Keywords) :
    (s.step keywords).Commented doc q ∧ (s.step keywords).cursor.pos = s.cursor.pos + (doc.decodeAt s.cursor.pos).2 := by
  have hc := h.sound.onText
  obtain ⟨hr, _, hposr, _⟩ := (@moves_storing isStreamComment s).onText hc hpos
  have hpair : s.storing.cursor.seesPair '*' '/' = false := by
    rw [seesPair_terminator hr, pos_storing]
    exact hgo
  obtain ⟨hin, hleftPos⟩ := h.inComment.storing.leave hpair keywords
  have hin : (s.left keywords).InComment := hin
  have hleftPos : (s.left keywords).cursor.pos = s.cursor.pos := hleftPos.trans s.pos_storing
  have hleft := h.sound.left hpos keywords
  have hmore := hleft.onText.more_iff.mpr hleft.pos_le
  -- Nothing starts within the comment.
  have henter : (s.left keywords).enter = s.left keywords := by
    unfold Scan.enter
    refine if_neg ?_
    rw [beq_iff_eq]
    intro hdefault
    have := hin.isStream
    rw [hdefault] at this
    cases this
  have hstep : s.step keywords = (s.left keywords).withCursor (s.left keywords).cursor.forward := by
    rw [step_eq, henter]
  have hwidth : (s.left keywords).cursor.width = (doc.decodeAt s.cursor.pos).2 := by
    rw [hleft.onText.settled.width_eq, hleft.onText.decodeAt_eq, hleftPos]
  have hforward : (s.step keywords).cursor.pos = s.cursor.pos + (doc.decodeAt s.cursor.pos).2 := by
    rw [hstep, ← hwidth, ← hleftPos]
    exact pos_forward hmore
  have hstate : (s.left keywords).cursor.forward.state = (s.left keywords).cursor.state := state_forward hmore
  refine ⟨⟨h.sound.step hpos keywords, ?_, ?_⟩, hforward⟩
  . rw [hstep]
    cases hin with
    | comment hcomment => exact .comment (hstate.trans hcomment)
    | commentDoc hcomment => exact .commentDoc (hstate.trans hcomment)
    | keyword hcomment hdoc => exact .keyword (hstate.trans hcomment) hdoc
  . intro i hle hlt hsize
    rcases Nat.lt_or_ge i s.cursor.pos with hbefore | hnew
    . exact covers_step hc hpos hsize (h.covers i hle hbefore hsize) keywords
    . rw [hstep] at hlt ⊢
      have hcovers := Covers.of_forward isStreamComment hleft.onText hleft.pos_le (by omega) hlt
      rwa [hin.isStream] at hcovers

/--
The terminator. Behind it, the scan is outside of a token.
-/
theorem Commented.close (hend : doc.matchesAt s.cursor.pos "*/" = true) (keywords : Keywords) :
    s.Between keywords (s.cursor.pos + 2)
      ∧ ∀ i, q ≤ i → i < s.cursor.pos + 2 → i < doc.size → (s.step keywords).cursor.Covers isStreamComment true i := by
  have hc := h.sound.onText
  have hmoves : Moves isStreamComment True s.cursor s.storing.cursor := moves_storing s
  obtain ⟨hr, _, hposr, _⟩ := hmoves.onText hc hpos
  have hpair : s.storing.cursor.seesPair '*' '/' = true := by
    rw [seesPair_terminator hr, pos_storing]
    exact hend
  obtain ⟨style, hstyle, hcursor⟩ := h.inComment.storing.close hpair keywords
  have hcursor : (s.left keywords).cursor = closeComment (s.storing.cursor.changeState style) := hcursor
  obtain ⟨hclosePos, hcloseState, hcloses⟩ := covers_closeComment (hr.changeState style) hposr hpair hstyle
  rw [← hcursor] at hclosePos hcloseState hcloses
  have hstart : (s.storing.cursor.changeState style).pos = s.cursor.pos := s.pos_storing
  rw [hstart] at hclosePos hcloses
  have hleft := h.sound.left hpos keywords
  refine ⟨⟨hc.more_iff.mpr hpos, hclosePos, hcloseState⟩, ?_⟩
  intro i hle hlt hsize
  rcases Nat.lt_or_ge i s.cursor.pos with hbefore | hnew
  . exact covers_step hc hpos hsize (h.covers i hle hbefore hsize) keywords
  . have hentered := (hcloses i hnew hlt).moves hleft.onText hleft.pos_le hsize (moves_enter hleft.onText hleft.pos_le)
    exact hentered.forward (hleft.enter.onText.more_iff.mpr hleft.enter.pos_le)

end Commented

/--
The two characters that open a stream comment do so outside of a token.
-/
theorem start_of_opener (hpair : s.cursor.seesPair '/' '*' = true) :
    ∃ style, (style = Style.comment ∨ style = Style.commentDoc) ∧ s.start = s.withCursor (s.cursor.setState style).forward := by
  obtain ⟨hcur, hnext⟩ := Bool.and_eq_true_iff.mp hpair
  have hcur : s.cursor.cur = 0x2F := beq_iff_eq.mp hcur
  have hnext : s.cursor.next = 0x2A := beq_iff_eq.mp hnext
  have hnumber : (s.cursor.cur.isDigit || s.cursor.sees '.' && s.cursor.next.isDigit) = false := by
    rw [Cursor.sees, hcur, hnext]
    decide
  have hraw : (s.cursor.cur.isOneOf "rxq" && s.cursor.next == Code.quote) = false := by
    rw [hcur, hnext]
    decide
  have hword : (isWordStart s.cursor.cur || s.cursor.sees '$') = false := by
    rw [Cursor.sees, hcur]
    decide
  have hnested : s.cursor.seesPair '/' '+' = false := by
    rw [seesPair, hcur, hnext]
    decide
  unfold start
  dsimp only
  rw [hnumber, hraw, hword, hnested, hpair, if_neg Bool.false_ne_true, if_neg Bool.false_ne_true, if_neg Bool.false_ne_true,
    if_neg Bool.false_ne_true, if_pos rfl]
  refine ⟨_, ?_, rfl⟩
  split
  . exact .inr rfl
  . exact .inl rfl

/--
So the comment is open behind them.
-/
theorem Between.opens (h : s.Between keywords q) (hs : s.Sound doc) (hopens : doc.matchesAt q "/*" = true) :
    (s.step keywords).Commented doc q ∧ (s.step keywords).cursor.pos = q + 2 := by
  have hpos := hs.onText.more_iff.mp h.more
  have hleft := hs.left hpos keywords
  have hpair : (s.left keywords).cursor.seesPair '/' '*' = true := by
    rw [hleft.onText.seesPair_iff (by decide) (by decide), h.pos]
    exact (matchesAt_opener doc q).mp hopens
  obtain ⟨style, hstyle, hstart⟩ := start_of_opener hpair
  have henter : (s.left keywords).enter = (s.left keywords).withCursor ((s.left keywords).cursor.setState style).forward := by
    unfold Scan.enter
    rw [if_pos (beq_iff_eq.mpr h.state), hstart]
  have hstep : s.step keywords = (s.left keywords).withCursor ((s.left keywords).cursor.setState style).forward.forward := by
    rw [step_eq, henter]
    rfl
  have hset := hleft.onText.setState style
  have hpair' : ((s.left keywords).cursor.setState style).seesPair '/' '*' = true := hpair
  obtain ⟨hforward, _, hpos', hbehind⟩ := hset.pos_forward_of_seesPair hleft.pos_le (by decide) (by decide) hpair'
  have hq : ((s.left keywords).cursor.setState style).pos = q := h.pos
  rw [hq] at hbehind
  have hstate : ((s.left keywords).cursor.setState style).forward.forward.state = style :=
    (state_forward (hforward.more_iff.mpr (Nat.le_of_lt hpos'))).trans (state_forward (hset.more_iff.mpr hleft.pos_le))
  have hsound := hs.step hpos keywords
  rw [hstep] at hsound ⊢
  refine ⟨⟨hsound, ?_, ?_⟩, hbehind⟩
  . rcases hstyle with rfl | rfl
    . exact .comment hstate
    . exact .commentDoc hstate
  . intro i hle hi hsize
    have hi : i < q + 2 := Nat.lt_of_lt_of_eq hi hbehind
    have hcovers : Covers isStreamComment _ i ((s.left keywords).cursor.setState style).forward.forward :=
      .of_seesPair isStreamComment hset hleft.pos_le (by decide) (by decide) hpair' (by omega) (by omega)
    have hkind : isStreamComment ((s.left keywords).cursor.setState style).state = true := by
      rcases hstyle with rfl | rfl
      . rfl
      . rfl
    rwa [hkind] at hcovers

end Scan

/--
A comment stays open up to its first terminator, or up to the end of the text.
-/
theorem Scan.Commented.exists_iterates (keywords : Keywords) (hsingle : ∀ page, doc.encoding ≠ .doubleByte page) {p : Nat}
    (hp : (∃ b : UInt8, doc.byteAt? p = some b ∧ b.toNat < 0x80) ∨ p = doc.size) (h : s.Commented doc q) (hle : s.cursor.pos ≤ p)
    (hgo : ∀ e, s.cursor.pos ≤ e → e < p → doc.matchesAt e "*/" = false) :
    ∃ t, Iterates (·.cursor.more) (Scan.step keywords) s t ∧ t.Commented doc q ∧ t.cursor.pos = p := by
  have hsize : p ≤ doc.size := by
    rcases hp with ⟨b, hb, _⟩ | hend
    . exact Nat.le_of_lt (Array.getElem?_eq_some_iff.mp hb).1
    . exact Nat.le_of_eq hend
  induction hk : p - s.cursor.pos using Nat.strongRecOn generalizing s with
  | ind k ih =>
    rcases Nat.eq_or_lt_of_le hle with heq | hlt
    . exact ⟨s, .refl s, h, heq⟩
    . have hin : s.cursor.pos ≤ doc.size := by omega
      obtain ⟨hstep, hpos⟩ := h.step hin (hgo _ (Nat.le_refl _) hlt) keywords
      have hwidth := Encoding.decodeAt_width_pos doc.encoding doc.text s.cursor.pos
      -- No character goes on over the place that the comment is followed up to.
      have hnext : s.cursor.pos + (doc.encoding.decodeAt doc.text s.cursor.pos).2 ≤ p := by
        rcases hp with ⟨b, hb, hascii⟩ | hend
        . exact doc.encoding.decodeAt_le_of_ascii_of_single hsingle hlt hb hascii
        . rw [hend]
          exact doc.encoding.decodeAt_le_size (show s.cursor.pos < doc.text.size by rw [← Document.size]; omega)
      rw [Document.decodeAt] at hpos
      obtain ⟨t, hrun, ht⟩ := ih (p - (s.step keywords).cursor.pos) (by omega) hstep (by omega)
        (fun e hle' hlt' => hgo e (by omega) hlt') rfl
      exact ⟨t, .head (h.sound.onText.more_iff.mpr hin) hrun, ht⟩

/--
Where the two bytes that open a stream comment stand outside of a token, all bytes up to its first terminator get a style of
such a comment, with those of the terminator, and the byte behind it is outside of a token again. If there is no terminator,
all bytes up to the end of the text get such a style.
-/
theorem colour_comment_to_first_terminator (session : Session) (hsession : session.lexer = lexer) (text : Array UInt8)
    (encoding : Encoding) (hencoding : encoding = .singleByte ∨ encoding = .utf8) (options : Options) (s : Scan) (q : Nat) :
    let doc := Document.fresh text encoding options
    let styled := session.colour doc 0 text.size
    Visits session.keywords doc s → s.Between session.keywords q → doc.matchesAt q "/*" = true →
      (∀ e, FirstTerminator doc q e →
        (∀ i, q ≤ i → i < e + 2 → isStreamComment (styled.styleAt i) = true)
          ∧ ∃ t, Iterates (·.cursor.more) (Scan.step session.keywords) s t ∧ t.Between session.keywords (e + 2))
        ∧ ((∀ e, q + 2 ≤ e → doc.matchesAt e "*/" = false) →
          ∀ i, q ≤ i → i < text.size → isStreamComment (styled.styleAt i) = true) := by
  intro doc styled hvisits hbetween hopens
  have hdoc : doc.WellFormed := Document.wellFormed_fresh text encoding options
  have hsingle : ∀ page, doc.encoding ≠ .doubleByte page := by
    intro page hpage
    rcases hencoding with h | h
    . exact absurd (h.symm.trans hpage) (by simp)
    . exact absurd (h.symm.trans hpage) (by simp)
  have hsound := hvisits.sound hdoc
  have hpos := hsound.onText.more_iff.mp hbetween.more
  obtain ⟨hopened, hat⟩ := hbetween.opens hsound hopens
  have hrun : Iterates (·.cursor.more) (Scan.step session.keywords) s (s.step session.keywords) :=
    .head hbetween.more (.refl _)
  have hfirst : doc.byteAt? q = some '/'.toUInt8 := ((Scan.matchesAt_opener doc q).mp hopens).1
  have hsize : q < doc.size := (Array.getElem?_eq_some_iff.mp hfirst).1
  have hstyled : styled = colour session.keywords ⟨0, doc.size, Style.default⟩ doc := by
    refine (session.colour_whole hdoc (Nat.zero_lt_of_lt hsize)).trans ?_
    rw [hsession]
    rfl
  have hsettled {t : Scan} {i : Nat} (hrun' : Iterates (·.cursor.more) (Scan.step session.keywords) s t) (hi : i < doc.size)
      (hcovers : t.cursor.Covers isStreamComment true i) : isStreamComment (styled.styleAt i) = true := by
    rw [hstyled]
    exact Visits.isStreamComment_colour hdoc (hvisits.trans hrun') hi hcovers
  constructor
  . intro e hend
    have hstar := ((Scan.matchesAt_terminator doc e).mp hend.terminates)
    have hlast : e + 1 < doc.size := (Array.getElem?_eq_some_iff.mp hstar.2).1
    have hle := hend.le
    obtain ⟨t, hrun', ht, hstop⟩ := hopened.exists_iterates session.keywords hsingle
      (.inl ⟨_, hstar.1, by decide⟩) (by omega) (fun e' hle' hlt => hend.first e' (by omega) hlt)
    obtain ⟨hbehind, hcovers⟩ := ht.close (by omega) (by rw [hstop]; exact hend.terminates) session.keywords
    rw [hstop] at hbehind hcovers
    refine ⟨?_, t, hrun.trans hrun', hbehind⟩
    intro i hle hlt
    exact hsettled ((hrun.trans hrun').tail hbehind.more) (by omega) (hcovers i hle hlt (by omega))
  . intro hnone i hle hi
    have hbehind : doc.byteAt? (q + 1) = some '*'.toUInt8 := ((Scan.matchesAt_opener doc q).mp hopens).2
    have hle' : q + 1 < doc.size := (Array.getElem?_eq_some_iff.mp hbehind).1
    obtain ⟨t, hrun', ht, hstop⟩ := hopened.exists_iterates session.keywords hsingle (.inr rfl) (by omega)
      (fun e' hle' _ => hnone e' (by omega))
    exact hsettled (hrun.trans hrun') hi (ht.covers i hle (by rw [hstop]; exact hi) hi)

/--
A documentation comment over two lines with a keyword right in front of its terminator, and a comment whose opening star
would end it if it were not for the opener.
-/
theorem colour_comment_to_first_terminator_keyword :
    let session := Session.ofLexer lexer
    let keyword := Document.fresh "x/** é\n@a*/y".toUTF8.data .utf8 .empty
    let opener := Document.fresh "/*/".toUTF8.data .singleByte .empty
    ((∀ i, 1 ≤ i → i < 12 → isStreamComment ((session.colour keyword 0 13).styleAt i) = true)
      ∧ ∃ t, Visits session.keywords keyword t ∧ t.Between session.keywords 12)
      ∧ ∀ i, 0 ≤ i → i < 3 → isStreamComment ((session.colour opener 0 3).styleAt i) = true := by
  intro session keyword opener
  have hvisits : Visits session.keywords keyword
      (Scan.step session.keywords (.ofSpan ⟨0, keyword.size, Style.default⟩ keyword)) := .head (by decide +kernel) (.refl _)
  have hbetween : (Scan.step session.keywords (.ofSpan ⟨0, keyword.size, Style.default⟩ keyword)).Between session.keywords 1 :=
    ⟨by decide +kernel, by decide +kernel, by decide +kernel⟩
  have hnone : ∀ i < 10, 3 ≤ i → keyword.matchesAt i "*/" = false := by decide +kernel
  have hend : FirstTerminator keyword 1 10 := ⟨by decide, by decide +kernel, fun i hle hlt => hnone i hlt hle⟩
  have hbetween' : (Scan.ofSpan ⟨0, opener.size, Style.default⟩ opener).Between session.keywords 0 :=
    ⟨by decide +kernel, by decide +kernel, by decide +kernel⟩
  have hnone' : ∀ i, 2 ≤ i → opener.matchesAt i "*/" = false := by
    intro i hi
    rw [Bool.eq_false_iff]
    intro hmatch
    have hslash := ((Scan.matchesAt_terminator opener i).mp hmatch).2
    have hlt : i + 1 < 3 := (Array.getElem?_eq_some_iff.mp hslash).1
    omega
  obtain ⟨hstyles, t, hrun, ht⟩ := (colour_comment_to_first_terminator session rfl "x/** é\n@a*/y".toUTF8.data .utf8 (.inr rfl)
    .empty _ 1 hvisits hbetween (by decide +kernel)).1 10 hend
  exact ⟨⟨hstyles, t, hvisits.trans hrun, ht⟩, (colour_comment_to_first_terminator session rfl "/*/".toUTF8.data .singleByte
    (.inl rfl) .empty _ 0 (.refl _) hbetween' (by decide +kernel)).2 hnone'⟩

end Rust

end Highlight
