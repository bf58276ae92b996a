import Highlight.Proofs.Cursor.Sight
import Highlight.Proofs.Sql.Sound

/-!
Two scans of SQL at the same place of a part that two texts share. What they do depends on the text that
both see, on the open token, and on where the segment of some tokens starts.
-/

namespace Highlight

open LineIndex

namespace View

variable {v : View} {doc doc' : Document} {pos : Nat}

/--
Whether the byte at `pos` is the same in both texts: it is in the part, or the part is the whole text.
-/
def Sees (v : View) (pos : Nat) : Prop :=
  pos < v.limit ∨ v.whole = true

/--
Behind a byte that ends no line, the part goes on.
-/
theorem Shows.sees_succ (h : v.Shows doc doc') (hsees : v.Sees pos) (hline : LineIndex.endsLine doc.text pos = false) :
    v.Sees (pos + 1) := by
  cases hwhole : v.whole with
  | true => exact .inr hwhole
  | false =>
    rw [Sees, hwhole] at hsees
    simp only [Bool.false_eq_true, or_false] at hsees
    refine .inl (Nat.lt_of_le_of_ne hsees ?_)
    intro heq
    have hstart := (h.startsLine_limit hwhole).2.1
    rw [← heq, startsLine_succ, hline] at hstart
    cases hstart

theorem lt_reach_of_sees (hsees : v.Sees pos) (hpos : pos ≤ v.limit) : pos < v.reach := by
  rcases hsees with hlt | hwhole
  . exact Nat.lt_of_lt_of_le hlt v.limit_le_reach
  . rw [reach_of_whole hwhole]
    omega

end View

namespace Sql

variable {v : View} {doc doc' : Document} {pos : Nat}

theorem codeAt_of_sees (h : v.Shows doc doc') (hsees : v.Sees pos) : codeAt doc' (pos + v.shift) = codeAt doc pos := by
  rw [codeAt, codeAt, h.byteAt hsees 0x20]

theorem sees_succ (h : v.Shows doc doc') (hsees : v.Sees pos) (hline : (codeAt doc pos).isLineEnd = false) : v.Sees (pos + 1) :=
  h.sees_succ hsees (endsLine_of_codeAt hline)

/--
A word in which no character ends a line is seen as a whole if its start is.
-/
theorem abbreviatedAt_of_sees (h : v.Shows doc doc') (hsees : v.Sees pos) {pattern : String}
    (hplain : ∀ c ∈ (Utf8.encode pattern).map UInt8.toNat,
      (Code.lineFeed.toLower == c) = false ∧ (Code.carriageReturn.toLower == c) = false) :
    abbreviatedAt doc' (pos + v.shift) pattern = abbreviatedAt doc pos pattern := by
  have hcode : ∀ pos, v.Sees pos → codeAt doc' (pos + v.shift) = codeAt doc pos := fun pos hpos => codeAt_of_sees h hpos
  refine abbreviatedAt_congr hcode ?_ hsees
  intro c hc pos hpos hlower
  obtain ⟨hfeed, hreturn⟩ := hplain c hc
  exact sees_succ h hpos (Scan.isLineEnd_of_test (fun x => x.toLower == c) hfeed hreturn hlower)

/--
What of a relation of pens colouring in a part keeps. The open token matters only where it can go on over a line
start, and only there can the segments differ.
-/
structure Kept (v : View) (rel : Style → Pen → Pen → Prop) : Prop where
  colourTo : ∀ {style pen pen' stop} (style' : Style), v.Shows pen.doc pen'.doc → v.start ≤ stop → stop ≤ v.reach →
    rel style pen pen' → rel style' (pen.colourTo stop style) (pen'.colourTo (stop + v.shift) style)
  restyle : ∀ {style pen pen'} (style' : Style), loose style = false → rel style pen pen' → rel style' pen pen'
  segment : ∀ {style pen pen'}, loose style = false → rel style pen pen' → pen'.segment = pen.segment + v.shift

theorem kept_of_closed {rel : Style → Pen → Pen → Prop} (h : v.Closed loose rel) : Kept v rel where
  colourTo := fun style' => h.colourTo style'
  restyle := h.restyle
  segment := h.segment

namespace Scan

/--
Characters that are the same, or both blank.
-/
def PrevAlike (c c' : Code) : Prop :=
  c' = c ∨ c'.isSpace = true ∧ c.isSpace = true

theorem PrevAlike.isSpace {c c' : Code} (h : PrevAlike c c') : c'.isSpace = c.isSpace := by
  rcases h with rfl | ⟨h', h⟩
  . rfl
  . rw [h, h']

theorem PrevAlike.is {c c' : Code} (h : PrevAlike c c') {x : Char} (hx : Code.isSpace x.toNat = false) :
    c'.is x = c.is x := by
  have hno {c : Code} (hc : c.isSpace = true) : c.is x = false := by
    rw [Bool.eq_false_iff]
    intro heq
    rw [beq_iff_eq.mp heq, hx] at hc
    cases hc
  rcases h with rfl | ⟨h', h⟩
  . rfl
  . rw [hno h, hno h']

/--
Two scans that do the same as long as their pens are related.
-/
structure Alike (v : View) (rel : Style → Pen → Pen → Prop) (s s' : Scan) : Prop where
  shows : v.Shows s.pen.doc s'.pen.doc
  pos : s'.pos = s.pos + v.shift
  state : s'.state = s.state
  prev : PrevAlike s.prev s'.prev
  pen : rel s.state s.pen s'.pen
  start_le : v.start ≤ s.pos

variable {rel : Highlight.Style → Pen → Pen → Prop} {s s' : Scan}

namespace Alike

theorem pos_eq (h : Alike v rel s s') (hshift : v.shift = 0) : s'.pos = s.pos := by
  rw [h.pos, hshift]
  rfl

section Sight

variable (h : Alike v rel s s')
include h

theorem codeAt {pos : Nat} (hsees : v.Sees pos) : Sql.codeAt s'.doc (pos + v.shift) = Sql.codeAt s.doc pos :=
  codeAt_of_sees h.shows hsees

theorem cur (hin : s.pos < v.reach) : s'.cur = s.cur := by
  rw [Scan.cur, Scan.cur, h.pos, h.codeAt (View.lt_limit_or_whole hin)]

theorem sees_next (hin : s.pos < v.reach) (hline : s.cur.isLineEnd = false) : v.Sees (s.pos + 1) :=
  sees_succ h.shows (View.lt_limit_or_whole hin) hline

theorem next (hin : s.pos < v.reach) (hline : s.cur.isLineEnd = false) : s'.next = s.next := by
  rw [Scan.next, Scan.next, h.pos, Nat.add_right_comm, h.codeAt (h.sees_next hin hline)]

/--
The character behind one that ends no line.
-/
theorem and_next (hin : s.pos < v.reach) {x : Char} (hfeed : Code.is Code.lineFeed x = false)
    (hreturn : Code.is Code.carriageReturn x = false) (q : Code → Bool) : (s.cur.is x && q s'.next) = (s.cur.is x && q s.next) := by
  cases hcur : s.cur.is x with
  | false => rfl
  | true => rw [h.next hin (isLineEnd_of_test (·.is x) hfeed hreturn hcur)]

theorem atLead (hin : s.pos < v.reach) : s'.atLead = s.atLead := by
  have hbyte := h.shows.byteAt (View.lt_limit_or_whole hin) 0x20
  have hencoding : s'.doc.encoding = s.doc.encoding := h.shows.encoding'.trans h.shows.encoding.symm
  rw [Scan.atLead, Scan.atLead, hencoding, h.pos]
  exact congrArg _ hbyte

theorem startingLine? (hin : s.pos < v.reach) : s'.startingLine? = s.startingLine? := by
  have hsees := View.lt_limit_or_whole hin
  have hremark : abbreviatedAt s'.doc (s.pos + v.shift) "rem~ark" = abbreviatedAt s.doc s.pos "rem~ark" :=
    abbreviatedAt_of_sees h.shows hsees (by decide)
  have hprompt : abbreviatedAt s'.doc (s.pos + v.shift) "pro~mpt" = abbreviatedAt s.doc s.pos "pro~mpt" :=
    abbreviatedAt_of_sees h.shows hsees (by decide)
  rw [Scan.startingLine?, Scan.startingLine?, h.pos, hremark, hprompt]

theorem startingComment? (hin : s.pos < v.reach) : s'.startingComment? = s.startingComment? := by
  have hstream := h.and_next hin (x := '/') rfl rfl (·.is '*')
  have hline := h.and_next hin (x := '-') rfl rfl (·.is '-')
  unfold Scan.startingComment?
  rw [h.cur hin, hstream, hline]
  split
  . next hopens =>
    rw [Bool.and_eq_true] at hopens
    have hnext := h.sees_next hin (isLineEnd_of_test (·.is '/') rfl rfl hopens.1)
    rw [h.pos, Nat.add_right_comm, h.codeAt (sees_succ h.shows hnext (isLineEnd_of_test (·.is '*') rfl rfl hopens.2))]
  . rfl

theorem starting? (hin : s.pos < v.reach) (betweenTokens : Bool) : s'.starting? betweenTokens = s.starting? betweenTokens := by
  have hstring : s'.startingString? = s.startingString? := by
    rw [Scan.startingString?, Scan.startingString?, h.cur hin]
  have hword : s'.startingWord? = s.startingWord? := by
    rw [Scan.startingWord?, Scan.startingWord?, h.cur hin]
  rw [Scan.starting?, Scan.starting?, h.startingLine? hin, h.startingComment? hin, hstring, hword]

theorem startsDocKeyword (hin : s.pos < v.reach) : s'.startsDocKeyword = s.startsDocKeyword := by
  rw [Scan.startsDocKeyword, Scan.startsDocKeyword, h.cur hin, h.prev.isSpace, h.prev.is (by decide)]
  cases hcur : s.cur.is '@' with
  | false => rfl
  | true => rw [h.next hin (isLineEnd_of_test (·.is '@') rfl rfl hcur)]

theorem token (hin : s.pos < v.reach) (hsegment : s'.pen.segment = s.pen.segment + v.shift) (limit : Nat) :
    s'.token limit = s.token limit := by
  have hbytes := @View.Shows.bytes _ _ _ h.shows s.pen.segment (min s.pos (s.pen.segment + limit)) (by omega)
  rw [Scan.token, Scan.token, hsegment, h.pos, Nat.add_right_comm, Nat.add_min_add_right]
  exact congrArg (fun bytes => (Utf8.decodeLossy bytes).toLower) hbytes

theorem shows_colourTo (stop stop' : Nat) (style style' : Highlight.Style) :
    v.Shows (s.pen.colourTo stop style).doc (s'.pen.colourTo stop' style').doc :=
  h.shows.of_sameSource (Cursor.sameSource_colourTo _ _ _) (Cursor.sameSource_colourTo _ _ _)

theorem skip : Alike v rel { s with pos := s.pos + 1 } { s' with pos := s'.pos + 1 } where
  shows := h.shows
  pos := (congrArg (· + 1) h.pos).trans (Nat.add_right_comm _ _ _)
  state := h.state
  prev := h.prev
  pen := h.pen
  start_le := Nat.le_succ_of_le h.start_le

end Sight

section Kept

variable (hrel : Kept v rel) (h : Alike v rel s s')
include hrel h

theorem close {stop : Nat} (hstop : v.start ≤ stop) (hreach : stop ≤ v.reach) (state : Highlight.Style) :
    Alike v rel (s.close stop state) (s'.close (stop + v.shift) state) where
  shows := h.shows_colourTo _ _ _ _
  pos := h.pos
  state := rfl
  prev := h.prev
  pen := by
    show rel state (s.pen.colourTo stop s.state) (s'.pen.colourTo (stop + v.shift) s'.state)
    rw [h.state]
    exact hrel.colourTo state h.shows hstop hreach h.pen
  start_le := h.start_le

theorem pens_operator (hin : s.pos < v.reach) (hpen : rel Style.default s.pen s'.pen) (state : Highlight.Style) :
    rel state ((s.pen.colourTo s.pos Style.default).colourTo (s.pos + 1) Style.operator)
      ((s'.pen.colourTo (s.pos + v.shift) Style.default).colourTo (s.pos + 1 + v.shift) Style.operator) :=
  hrel.colourTo state (h.shows_colourTo _ _ _ _) (Nat.le_succ_of_le h.start_le) hin
    (hrel.colourTo Style.operator h.shows h.start_le (Nat.le_of_lt hin) hpen)

/--
Right behind a token, what comes next is the same, whatever the style of that token was.
-/
theorem enter (hin : s.pos < v.reach) (hpen : ∀ style, rel style s.pen s'.pen) : Alike v rel s.enter s'.enter := by
  unfold Scan.enter
  rw [h.starting? hin false]
  split
  . exact ⟨h.shows, h.pos, rfl, h.prev, hpen _, h.start_le⟩
  . unfold operator
    rw [h.cur hin, h.pos, Nat.add_right_comm]
    split
    . exact
        { shows := (h.shows_colourTo _ _ _ _).of_sameSource (Cursor.sameSource_colourTo _ _ _) (Cursor.sameSource_colourTo _ _ _)
          pos := rfl
          state := rfl
          prev := h.prev
          pen := h.pens_operator hrel hin (hpen _) _
          start_le := h.start_le }
    . exact ⟨h.shows, h.pos, rfl, h.prev, hpen _, h.start_le⟩

/--
Ending a token, what comes next is the same.
-/
theorem enter_colourTo {stop pos : Nat} {style : Highlight.Style} (hstop : v.start ≤ stop) (hreach : stop ≤ v.reach)
    (hpos : s.pos ≤ pos) (hin : pos < v.reach) (hpen : rel style s.pen s'.pen) :
    Alike v rel ({ s with pen := s.pen.colourTo stop style, state := Style.default, pos } : Scan).enter
      ({ s' with pen := s'.pen.colourTo (stop + v.shift) style, state := Style.default, pos := pos + v.shift } : Scan).enter := by
  have hpens (style' : Highlight.Style) := hrel.colourTo style' h.shows hstop hreach hpen
  refine enter hrel ?_ hin hpens
  exact ⟨h.shows_colourTo _ _ _ _, rfl, rfl, h.prev, hpens _, Nat.le_trans h.start_le hpos⟩

theorem stepBetween (hin : s.pos < v.reach) (hstate : s.state = Style.default) : Alike v rel s.stepBetween s'.stepBetween := by
  unfold Scan.stepBetween
  rw [h.starting? hin true]
  split
  . rw [h.pos]
    exact h.close hrel h.start_le (Nat.le_of_lt hin) _
  . unfold operator
    rw [h.cur hin, h.pos, Nat.add_right_comm]
    split
    . exact
        { shows := (h.shows_colourTo _ _ _ _).of_sameSource (Cursor.sameSource_colourTo _ _ _) (Cursor.sameSource_colourTo _ _ _)
          pos := rfl
          state := h.state
          prev := h.prev
          pen := h.pens_operator hrel hin (hstate ▸ h.pen) _
          start_le := h.start_le }
    . exact h

theorem stepInWord (hin : s.pos < v.reach) (hbehind : s.pen.segment ≤ s.pos) (hstate : s.state = Style.word)
    (keywords : Keywords) : Alike v rel (s.stepInWord keywords) (s'.stepInWord keywords) := by
  have hloose : loose s.state = false := by
    rw [hstate]
    rfl
  have hsegment := hrel.segment hloose h.pen
  have hfirst := h.codeAt (View.lt_limit_or_whole (Nat.lt_of_le_of_lt hbehind hin))
  unfold Scan.stepInWord
  rw [h.cur hin]
  split
  . exact h
  . dsimp only
    rw [h.token hin hsegment, hsegment, hfirst, ← enter_withState _ Style.default,
      ← enter_withState { s' with pen := _ } Style.default, h.pos]
    exact h.enter_colourTo hrel h.start_le (Nat.le_of_lt hin) (Nat.le_refl _) hin (hrel.restyle _ hloose h.pen)

theorem stepInToken_of_leave {settings settings' : Settings} {stop pos : Nat} {style : Highlight.Style} (hstop : v.start ≤ stop)
    (hreach : stop ≤ v.reach) (hpos : s.pos ≤ pos) (hin : pos < v.reach) (hpen : rel style s.pen s'.pen)
    (hleave : s.leave settings = { s with pen := s.pen.colourTo stop style, state := Style.default, pos })
    (hleave' : s'.leave settings'
      = { s' with pen := s'.pen.colourTo (stop + v.shift) style, state := Style.default, pos := pos + v.shift }) :
    Alike v rel (s.stepInToken settings) (s'.stepInToken settings') := by
  rw [stepInToken_of_eq (by rw [hleave]), stepInToken_of_eq (by rw [hleave']), hleave, hleave']
  exact h.enter_colourTo hrel hstop hreach hpos hin hpen

omit hrel h in
/--
A token that does not end here.
-/
theorem stepInToken_of_open {settings settings' : Settings} {t t' : Scan} (hleave : s.leave settings = t)
    (hleave' : s'.leave settings' = t') (hopen : t.state ≠ Style.default) (halike : Alike v rel t t') :
    Alike v rel (s.stepInToken settings) (s'.stepInToken settings') := by
  subst hleave hleave'
  rw [stepInToken_of_ne hopen, stepInToken_of_ne (by rw [halike.state]; exact hopen)]
  exact halike

section Token

variable {settings settings' : Settings} (hin : s.pos < v.reach)
include hin

theorem stepInToken_of_leaveComment (hstate : s.state ≠ Style.default)
    (hcloses : s'.closesComment settings'.span = s.closesComment settings.span)
    (hleave : s.leave settings = s.leaveComment settings.span) (hleave' : s'.leave settings' = s'.leaveComment settings'.span) :
    Alike v rel (s.stepInToken settings) (s'.stepInToken settings') := by
  rw [leaveComment] at hleave hleave'
  rw [hcloses] at hleave'
  split at hleave
  . next hclose =>
    rw [if_pos hclose, h.pos] at hleave'
    refine h.stepInToken_of_leave hrel (Nat.le_succ_of_le h.start_le) hin (Nat.le_refl _) hin h.pen hleave ?_
    rw [hleave', Scan.close, h.state, h.pos, Nat.add_right_comm]
  . next hclose =>
    rw [if_neg hclose] at hleave'
    exact stepInToken_of_open hleave hleave' hstate h

theorem stepInToken_comment (hstate : s.state = Style.comment)
    (hcloses : (s.cur.is '/' && s.prev.is '*') = true → s'.closesComment settings'.span = s.closesComment settings.span) :
    Alike v rel (s.stepInToken settings) (s'.stepInToken settings') := by
  have hopen : s.state ≠ Style.default := by
    rw [hstate]
    decide
  have hleave := @leave_of_comment _ settings hstate
  have hleave' := @leave_of_comment _ settings' (h.state.trans hstate)
  rw [h.cur hin, h.prev.is (by decide)] at hleave'
  split at hleave
  . next hends =>
    rw [if_pos hends] at hleave'
    exact h.stepInToken_of_leaveComment hrel hin hopen (hcloses hends) hleave hleave'
  . next hends =>
    rw [if_neg hends] at hleave'
    exact stepInToken_of_open hleave hleave' hopen h

theorem stepInToken_commentDoc (hstate : s.state = Style.commentDoc)
    (hcloses : (s.cur.is '/' && s.prev.is '*') = true → s'.closesComment settings'.span = s.closesComment settings.span) :
    Alike v rel (s.stepInToken settings) (s'.stepInToken settings') := by
  have hopen : s.state ≠ Style.default := by
    rw [hstate]
    decide
  have hleave := @leave_of_commentDoc _ settings hstate
  have hleave' := @leave_of_commentDoc _ settings' (h.state.trans hstate)
  rw [h.cur hin, h.prev.is (by decide), h.startsDocKeyword hin, h.pos] at hleave'
  split at hleave
  . next hends =>
    rw [if_pos hends] at hleave'
    exact h.stepInToken_of_leaveComment hrel hin hopen (hcloses hends) hleave hleave'
  . next hends =>
    rw [if_neg hends] at hleave'
    split at hleave
    . next hword =>
      rw [if_pos hword] at hleave'
      refine stepInToken_of_open hleave hleave' (show Style.docKeyword ≠ Style.default by decide) ?_
      exact h.close hrel h.start_le (Nat.le_of_lt hin) _
    . next hword =>
      rw [if_neg hword] at hleave'
      exact stepInToken_of_open hleave hleave' hopen h

theorem stepInToken_line (hstate : isLineStyle s.state = true) :
    Alike v rel (s.stepInToken settings) (s'.stepInToken settings') := by
  have hleave := @leave_of_isLineStyle _ settings hstate
  have hleave' := @leave_of_isLineStyle _ settings' (by rw [h.state]; exact hstate)
  rw [h.cur hin, Scan.close, h.state, h.pos] at hleave'
  split at hleave
  . next hcur =>
    rw [if_pos hcur] at hleave'
    exact h.stepInToken_of_leave hrel h.start_le (Nat.le_of_lt hin) (Nat.le_refl _) hin h.pen hleave hleave'
  . next hcur =>
    rw [if_neg hcur] at hleave'
    exact stepInToken_of_open hleave hleave' (ne_of_isLineStyle hstate).1 h

theorem stepInToken_docKeyword (hstate : s.state = Style.docKeyword) (hkeywords : settings'.keywords = settings.keywords) :
    Alike v rel (s.stepInToken settings) (s'.stepInToken settings') := by
  have hloose : loose s.state = false := by
    rw [hstate]
    rfl
  have hsegment := hrel.segment hloose h.pen
  have hpen (style : Highlight.Style) : rel style s.pen s'.pen := hrel.restyle style hloose h.pen
  have hleave := @leave_of_docKeyword _ settings hstate
  have hleave' := @leave_of_docKeyword _ settings' (h.state.trans hstate)
  unfold leaveDocKeyword at hleave hleave'
  dsimp only at hleave hleave'
  rw [h.cur hin, h.prev.is (by decide), h.token hin hsegment, h.state, h.pos, hkeywords] at hleave'
  split at hleave
  . next hends =>
    rw [if_pos hends] at hleave'
    exact h.stepInToken_of_leave hrel h.start_le (Nat.le_of_lt hin) (Nat.le_refl _) hin (hpen _) hleave hleave'
  . next hends =>
    rw [if_neg hends] at hleave'
    split at hleave
    . next hword =>
      rw [if_pos hword] at hleave'
      exact stepInToken_of_open hleave hleave' (by rw [hstate]; decide) h
    . next hword =>
      rw [if_neg hword] at hleave'
      refine stepInToken_of_open hleave hleave' (show Style.commentDoc ≠ Style.default by decide) ?_
      exact
        { shows := h.shows_colourTo _ _ _ _
          pos := rfl
          state := rfl
          prev := h.prev
          pen := hrel.colourTo _ h.shows h.start_le (Nat.le_of_lt hin) (hpen _)
          start_le := h.start_le }

end Token

section Turn

variable {settings settings' : Settings} (hin : s.pos < v.limit)
include hin

omit hrel in
theorem succ_lt_reach (hline : s.cur.isLineEnd = false) : s.pos + 1 < v.reach :=
  View.lt_reach_of_sees (h.sees_next (Nat.lt_of_lt_of_le hin v.limit_le_reach) hline) hin

theorem stepInToken_of_leaveString {quote : Code} (hquote : quote.isLineEnd = false) (hstate : s.state ≠ Style.default)
    (hleave : s.leave settings = s.leaveString quote) (hleave' : s'.leave settings' = s'.leaveString quote) :
    Alike v rel (s.stepInToken settings) (s'.stepInToken settings') := by
  have hreach := Nat.lt_of_lt_of_le hin v.limit_le_reach
  unfold leaveString at hleave hleave'
  rw [h.cur hreach] at hleave'
  split at hleave
  . next hcur =>
    have hline : s.cur.isLineEnd = false := by rw [beq_iff_eq.mp hcur, hquote]
    rw [if_pos hcur, h.next hreach hline] at hleave'
    split at hleave
    . next hnext =>
      rw [if_pos hnext] at hleave'
      exact stepInToken_of_open hleave hleave' hstate h.skip
    . next hnext =>
      rw [if_neg hnext] at hleave'
      refine h.stepInToken_of_leave hrel (Nat.le_succ_of_le h.start_le) hreach (Nat.le_succ _) (h.succ_lt_reach hin hline) h.pen
        hleave ?_
      rw [hleave', Scan.close, h.state, h.pos]
      dsimp only
      rw [Nat.add_right_comm]
  . next hcur =>
    rw [if_neg hcur] at hleave'
    exact stepInToken_of_open hleave hleave' hstate h

theorem stepInToken_string (hstate : s.state = Style.string) :
    Alike v rel (s.stepInToken settings) (s'.stepInToken settings') :=
  h.stepInToken_of_leaveString hrel hin (show Code.quote.isLineEnd = false by decide) (by rw [hstate]; decide)
    (leave_of_string hstate) (leave_of_string (h.state.trans hstate))

theorem stepInToken_character (hstate : s.state = Style.character)
    (hescapes : settings'.backslashEscapes = settings.backslashEscapes) :
    Alike v rel (s.stepInToken settings) (s'.stepInToken settings') := by
  have hopen : s.state ≠ Style.default := by
    rw [hstate]
    decide
  have hleave := @leave_of_character _ settings hstate
  have hleave' := @leave_of_character _ settings' (h.state.trans hstate)
  rw [h.cur (Nat.lt_of_lt_of_le hin v.limit_le_reach), hescapes] at hleave'
  split at hleave
  . next hcur =>
    rw [if_pos hcur] at hleave'
    exact stepInToken_of_open hleave hleave' hopen h.skip
  . next hcur =>
    rw [if_neg hcur] at hleave'
    exact h.stepInToken_of_leaveString hrel hin (show Code.apostrophe.isLineEnd = false by decide) hopen hleave hleave'

variable (hbehind : s.pen.segment ≤ s.pos) (hkeywords : settings'.keywords = settings.keywords)
  (hescapes : settings'.backslashEscapes = settings.backslashEscapes)
  (hcloses : s.state = Style.comment ∨ s.state = Style.commentDoc → (s.cur.is '/' && s.prev.is '*') = true →
    s'.closesComment settings'.span = s.closesComment settings.span)
include hbehind hkeywords hescapes hcloses

/--
Turns of two scans whose comments end at the same place.
-/
theorem turn : Alike v rel (s.turn settings) (s'.turn settings') := by
  have hstate := h.state
  have hreach := Nat.lt_of_lt_of_le hin v.limit_le_reach
  cases hopen : isOpenStyle s.state with
  | false =>
    rw [turn_of_not_open hopen, turn_of_not_open (by rw [hstate]; exact hopen)]
    exact h
  | true =>
    rcases isOpenStyle_cases hopen with heq | heq | heq | heq | heq | heq | heq | heq
    . rw [turn_of_default heq, turn_of_default (hstate.trans heq)]
      exact h.stepBetween hrel hreach heq
    . rw [turn_of_word heq, turn_of_word (hstate.trans heq), hkeywords]
      exact h.stepInWord hrel hreach hbehind heq _
    . rw [turn_of_token heq (by decide), turn_of_token (hstate.trans heq) (by decide)]
      exact h.stepInToken_comment hrel hreach heq (hcloses (.inl heq))
    . rw [turn_of_token heq (by decide), turn_of_token (hstate.trans heq) (by decide)]
      exact h.stepInToken_commentDoc hrel hreach heq (hcloses (.inr heq))
    . rw [turn_of_token rfl (ne_of_isLineStyle heq), turn_of_token hstate (ne_of_isLineStyle heq)]
      exact h.stepInToken_line hrel hreach heq
    . rw [turn_of_token heq (by decide), turn_of_token (hstate.trans heq) (by decide)]
      exact h.stepInToken_docKeyword hrel hreach heq hkeywords
    . rw [turn_of_token heq (by decide), turn_of_token (hstate.trans heq) (by decide)]
      exact h.stepInToken_string hrel hin heq
    . rw [turn_of_token heq (by decide), turn_of_token (hstate.trans heq) (by decide)]
      exact h.stepInToken_character hrel hin heq hescapes

theorem step : Alike v rel (s.step settings) (s'.step settings') := by
  have hreach := Nat.lt_of_lt_of_le hin v.limit_le_reach
  have hlead := h.atLead hreach
  cases hat : s.atLead with
  | true =>
    rw [step_of_lead hat, step_of_lead (hlead.trans hat), h.pos]
    exact ⟨h.shows, Nat.add_right_comm _ _ _, h.state, .inl rfl, h.pen, Nat.le_trans h.start_le (Nat.le_add_right _ _)⟩
  | false =>
    have hturn := h.turn hrel hin hbehind hkeywords hescapes hcloses
    have hpos : (s.turn settings).pos < v.reach := by
      rcases (turn_spec s settings).pos_cases with heq | ⟨heq, hline⟩
      . omega
      . have := h.succ_lt_reach hin hline
        omega
    rw [step_of_turn hat, step_of_turn (hlead.trans hat), hturn.pos]
    exact ⟨hturn.shows, Nat.add_right_comm _ _ _, hturn.state, .inl (hturn.cur hpos), hturn.pen, Nat.le_succ_of_le hturn.start_le⟩

end Turn

end Kept

end Alike

end Scan

end Sql

end Highlight
