import Highlight.Proofs.Cursor.Sight
import Highlight.Proofs.Tcl.Memory
import Highlight.Tcl.Colour

/-!
The steps of Tcl depend on nothing but what a cursor sees and on the fields of the scan, of which the
number of parentheses counts in a substitution only.
-/

namespace Highlight.Tcl

open Cursor

variable {strict : Prop} {v : View} {rel : Style → Pen → Pen → Prop} {c c' : Cursor} {s s' : Scan}

/--
The only token that can be open at a line start is one of the default style.
-/
def loose (style : Style) : Bool :=
  style == Style.default

namespace Scan

theorem openedByBrace_eq (h : c.Alike v rel c') (hlt : c.pos < v.reach) (word : String) :
    openedByBrace c' word = openedByBrace c word := by
  have hlimit := View.le_limit_of_lt_reach hlt
  unfold openedByBrace
  rw [h.pos]
  by_cases hword : word.utf8ByteSize < c.pos
  . rw [show c.pos + v.shift - (word.utf8ByteSize + 1) = c.pos - (word.utf8ByteSize + 1) + v.shift by omega,
      h.shows.byteAt (.inl (by omega))]
    simp only [hword, show word.utf8ByteSize < c.pos + v.shift by omega]
  . simp only [hword, decide_false, Bool.false_and, Bool.and_eq_false_iff, decide_eq_false_iff_not]
    by_cases hword' : word.utf8ByteSize < c.pos + v.shift
    . right
      rw [Document.byteAt, h.shows.lead _ (by omega)]
      rfl
    . exact .inl hword'

theorem commandStyle?_eq (h : c.Alike v rel c') (hlt : c.pos < v.reach) (keywords : Keywords) (word : String) :
    commandStyle? keywords c' word = commandStyle? keywords c word := by
  simp only [commandStyle?, h.state, openedByBrace_eq h hlt, h.sees hlt]

/--
Two scans inside of a step, at the same character of the part that a view shows.

A line that shows nothing and a comment line leave the number of open braces as it is, and where a block
of comment lines is open, the line has started with it and nothing else. A pass that is not `strict` can begin with
other numbers.
-/
structure Inside (strict : Prop) (v : View) (rel : Style → Pen → Pen → Prop) (s s' : Scan) : Prop where
  cursor : s.cursor.Alike v rel s'.cursor
  lt_reach : s.cursor.pos < v.reach
  rest : s' = { s with cursor := s'.cursor, parens := s'.parens }
  parens : s.cursor.state = Style.substitution → s'.parens = s.parens
  flat : s.visible = false ∨ s.cursor.state = Style.commentLine → s.depth = s.lineDepth
  block : strict → s.inCommentBlock = true → s.lineDepth = 1

namespace Inside

theorem exists_eq (h : Inside strict v rel s s') :
    ∃ c' parens', s.cursor.Alike v rel c' ∧ s' = { s with cursor := c', parens := parens' } :=
  ⟨_, _, h.cursor, h.rest⟩

theorem commandExpected (h : Inside strict v rel s s') : s'.commandExpected = s.commandExpected := by
  rw [h.rest]

/--
Another token is open, which is neither a substitution nor a comment line.
-/
theorem move (h : Inside strict v rel s s') (hc : c.Alike v rel c') (hlt : c.pos < v.reach)
    (hsubstitution : c.state ≠ Style.substitution) (hcomment : c.state ≠ Style.commentLine) :
    Inside strict v rel (s.withCursor c) (s'.withCursor c') where
  cursor := hc
  lt_reach := hlt
  rest := congrArg (·.withCursor c') h.rest
  parens := fun hstate => absurd hstate hsubstitution
  flat := fun hflat => h.flat (hflat.imp_right fun hstate => absurd hstate hcomment)
  block := h.block

theorem setState (hrel : v.Closed Tcl.loose rel) (h : Inside strict v rel s s') {style : Style}
    (hsubstitution : style ≠ Style.substitution) (hcomment : style ≠ Style.commentLine) :
    Inside strict v rel (s.withCursor (s.cursor.setState style)) (s'.withCursor (s'.cursor.setState style)) :=
  h.move (h.cursor.setState hrel style) h.lt_reach hsubstitution hcomment

theorem forwardSetState (hrel : v.Closed Tcl.loose rel) (h : Inside strict v rel s s') (hcur : s.cursor.cur.isInner = true)
    {style : Style} (hsubstitution : style ≠ Style.substitution) (hcomment : style ≠ Style.commentLine) :
    Inside strict v rel (s.withCursor (s.cursor.forwardSetState style)) (s'.withCursor (s'.cursor.forwardSetState style)) :=
  h.move ((h.cursor.forward h.lt_reach).setState hrel style) (h.cursor.forward_inner h.lt_reach hcur) hsubstitution hcomment

/--
Whether a command is expected counts for nothing else.
-/
theorem withCommand (h : Inside strict v rel s s') (commandExpected : Bool) :
    Inside strict v rel { s with commandExpected } { s' with commandExpected } where
  cursor := h.cursor
  lt_reach := h.lt_reach
  rest := congrArg (fun t : Scan => { t with commandExpected }) h.rest
  parens := h.parens
  flat := h.flat
  block := h.block

theorem withEscaped (h : Inside strict v rel s s') (escaped : Bool) : Inside strict v rel { s with escaped } { s' with escaped } where
  cursor := h.cursor
  lt_reach := h.lt_reach
  rest := congrArg (fun t : Scan => { t with escaped }) h.rest
  parens := h.parens
  flat := h.flat
  block := h.block

theorem withInBraces (h : Inside strict v rel s s') (inBraces : Bool) : Inside strict v rel { s with inBraces } { s' with inBraces } where
  cursor := h.cursor
  lt_reach := h.lt_reach
  rest := congrArg (fun t : Scan => { t with inBraces }) h.rest
  parens := h.parens
  flat := h.flat
  block := h.block

theorem withParens (h : Inside strict v rel s s') (parens : Nat) : Inside strict v rel { s with parens } { s' with parens } where
  cursor := h.cursor
  lt_reach := h.lt_reach
  rest := congrArg (fun t : Scan => { t with parens }) h.rest
  parens := fun _ => rfl
  flat := h.flat
  block := h.block

theorem withOpened (h : Inside strict v rel s s') (opened : Opened) : Inside strict v rel { s with opened } { s' with opened } where
  cursor := h.cursor
  lt_reach := h.lt_reach
  rest := congrArg (fun t : Scan => { t with opened }) h.rest
  parens := h.parens
  flat := h.flat
  block := h.block

/--
A line can begin to show something at any time.
-/
theorem withVisible (h : Inside strict v rel s s') (visible : Bool) :
    Inside strict v rel { s with visible := s.visible || visible } { s' with visible := s'.visible || visible } where
  cursor := h.cursor
  lt_reach := h.lt_reach
  rest := congrArg (fun t : Scan => { t with visible := t.visible || visible }) h.rest
  parens := h.parens
  flat := fun hflat => h.flat (hflat.imp_left fun hvisible => (Bool.or_eq_false_iff.mp hvisible).1)
  block := h.block

theorem leaveWord (hrel : v.Closed Tcl.loose rel) (h : Inside strict v rel s s') (hstate : s.cursor.state ≠ Style.default)
    (keywords : Keywords) : Inside strict v rel (s.leaveWord keywords) (s'.leaveWord keywords) := by
  have hloose : Tcl.loose s.cursor.state = false := beq_eq_false_iff_ne.mpr hstate
  obtain ⟨c', parens', hc, rfl⟩ := h.exists_eq
  unfold Scan.leaveWord
  simp only [commandStyle?_eq hc h.lt_reach, hc.token hrel hloose, hc.state]
  generalize (if s.inCommentBlock || s.commandExpected then
    userStyle? keywords (s.cursor.token 99) <|> commandStyle? keywords s.cursor (s.cursor.token 99) else none) = style?
  have hset := (hc.changeState hrel hloose (style?.getD s.cursor.state)).setState hrel
    (if s.cursor.state == Style.inQuote then Style.inQuote else Style.default)
  refine (h.move hset h.lt_reach ?_ ?_).withCommand false
  . show (if s.cursor.state == Style.inQuote then Style.inQuote else Style.default) ≠ _
    split <;> decide
  . show (if s.cursor.state == Style.inQuote then Style.inQuote else Style.default) ≠ _
    split <;> decide

theorem leaveBraces (hrel : v.Closed Tcl.loose rel) (h : Inside strict v rel s s') : Inside strict v rel s.leaveBraces s'.leaveBraces := by
  unfold Scan.leaveBraces
  simp only [h.cursor.sees h.lt_reach]
  split
  . next hsees =>
    have hset := h.setState hrel (show Style.operator ≠ Style.substitution by decide) (by decide)
    exact (hset.forwardSetState hrel (isInner_of_sees (by decide) hsees) (by decide) (by decide)).withInBraces false
  . exact h.setState hrel (by decide) (by decide)

theorem leaveSubstitution (hrel : v.Closed Tcl.loose rel) (h : Inside strict v rel s s')
    (hstate : s.cursor.state = Style.substitution) : Inside strict v rel s.leaveSubstitution s'.leaveSubstitution := by
  have hparens := h.parens hstate
  unfold Scan.leaveSubstitution
  simp only [h.cursor.sees h.lt_reach, h.cursor.cur h.lt_reach, hparens]
  split
  . exact h.withParens (s.parens + 1)
  . split
    . split
      . exact h.withParens (s.parens - 1)
      . exact h.setState hrel (by decide) (by decide)
    . split
      . exact h
      . exact (h.setState hrel (show Style.default ≠ Style.substitution by decide) (by decide)).withParens 0

theorem leave (hrel : v.Closed Tcl.loose rel) (h : Inside strict v rel s s') (keywords : Keywords) :
    Inside strict v rel (s.leave keywords) (s'.leave keywords) := by
  obtain ⟨c', parens', hc, rfl⟩ := h.exists_eq
  unfold Scan.leave
  simp only [hc.state, hc.cur h.lt_reach]
  split
  . exact h.leaveBraces hrel
  . split
    . exact h.withCommand _
    . next hopen =>
      split
      . next hstate => exact h.leaveSubstitution hrel (by simpa using hstate)
      . split
        . refine h.leaveWord hrel ?_ keywords
          intro hstate
          rw [hstate] at hopen
          exact hopen rfl
        . exact h

theorem startComment (hrel : v.Closed Tcl.loose rel) (h : Inside strict v rel s s') :
    Inside strict v rel s.startComment s'.startComment := by
  obtain ⟨c', parens', hc, rfl⟩ := h.exists_eq
  unfold Scan.startComment
  simp only [hc.sees h.lt_reach]
  split
  . split
    . next hvisible =>
      exact
        { cursor := hc.setState hrel _
          lt_reach := h.lt_reach
          rest := rfl
          parens := fun hstate => absurd hstate (show Style.commentLine ≠ Style.substitution by decide)
          flat := fun _ => h.flat (.inl (by simpa using hvisible))
          block := h.block }
    . split
      . exact (h.setState hrel (show Style.comment ≠ Style.substitution by decide) (by decide)).withCommand false
      . exact h
  . exact h

/--
The braces of a line show, so they can change its number of open braces.
-/
theorem withDepth (h : Inside strict v rel s s') (hvisible : s.visible = true) (hstate : s.cursor.state ≠ Style.commentLine)
    (change : Int) : Inside strict v rel { s with depth := s.depth + change } { s' with depth := s'.depth + change } where
  cursor := h.cursor
  lt_reach := h.lt_reach
  rest := congrArg (fun t : Scan => { t with depth := t.depth + change }) h.rest
  parens := h.parens
  flat := by
    rintro (hflat | hflat)
    . rw [hvisible] at hflat
      cases hflat
    . exact absurd hflat hstate
  block := h.block

end Inside

/--
What two alike steps come to. Where a step leaves the cursor to another one, that one has come further in
the same line.
-/
structure Next (strict : Prop) (v : View) (rel : Style → Pen → Pen → Prop) (r r' : Scan × Flow) : Prop where
  flow : r'.2 = r.2
  inside : Inside strict v rel r.1 r'.1
  goesOn : r.2 ≠ .stop
  forward : r.2 = .forward → r.1.cursor.atLineEnd = false
  again : r.2 = .again → v.start < r.1.cursor.pos ∧ r.1.cursor.atLineStart = false

namespace Next

theorem of_forward (h : Inside strict v rel s s') (hend : s.cursor.atLineEnd = false) : Next strict v rel (s, .forward) (s', .forward) where
  flow := rfl
  inside := h
  goesOn := nofun
  forward := fun _ => hend
  again := nofun

theorem of_again (h : Inside strict v rel s s') (hpos : v.start < s.cursor.pos) (hstart : s.cursor.atLineStart = false) :
    Next strict v rel (s, .again) (s', .again) where
  flow := rfl
  inside := h
  goesOn := nofun
  forward := nofun
  again := fun _ => ⟨hpos, hstart⟩

theorem ite {p : Prop} [Decidable p] {a a' b b' : Scan × Flow} (ha : p → Next strict v rel a a') (hb : ¬ p → Next strict v rel b b') :
    Next strict v rel (if p then a else b) (if p then a' else b') := by
  split
  . next h => exact ha h
  . next h => exact hb h

end Next

namespace Inside

/--
The place behind a character that ends no line.
-/
theorem passed (h : Inside strict v rel s s') (hcur : s.cursor.cur.isInner = true) (style : Style) :
    v.start < (s.cursor.forwardSetState style).pos ∧ (s.cursor.forwardSetState style).atLineStart = false := by
  have hstart := h.cursor.start_le
  have hwidth := h.cursor.settled.width_pos
  have hmore := h.cursor.more h.lt_reach
  constructor
  . show v.start < s.cursor.forward.pos
    rw [pos_forward hmore]
    omega
  . show s.cursor.forward.atLineStart = false
    rw [atLineStart_forward hmore]
    exact h.cursor.settled.atLineEnd_of_isInner hcur

theorem startSubstitution (hrel : v.Closed Tcl.loose rel) (h : Inside strict v rel s s') (hend : s.cursor.atLineEnd = false)
    (hsees : s.cursor.sees '$' = true) : Next strict v rel s.startSubstitution s'.startSubstitution := by
  have hcur := isInner_of_sees (by decide) hsees
  have hmore := h.cursor.more h.lt_reach
  have hnext : (s.cursor.forwardSetState Style.operator).cur = s.cursor.next := cur_forward hmore
  unfold Scan.startSubstitution
  simp only [h.cursor.next_of_isInner h.lt_reach hcur]
  split
  . next hbrace =>
    have hcur' : (s.cursor.forwardSetState Style.operator).cur.isInner = true := by
      rw [hnext]
      exact Code.isInner_of_is (by decide) hbrace
    have hfirst := h.forwardSetState hrel hcur (show Style.operator ≠ Style.substitution by decide) (by decide)
    have hsecond := hfirst.forwardSetState hrel hcur' (show Style.bracedSubstitution ≠ Style.substitution by decide)
      (by decide)
    have hpassed := hfirst.passed hcur' Style.bracedSubstitution
    exact .of_again ((hsecond.withParens 0).withInBraces true) hpassed.1 hpassed.2
  . refine .of_forward ?_ hend
    exact
      { cursor := h.cursor.setState hrel _
        lt_reach := h.lt_reach
        rest := congrArg (fun t : Scan => { t with parens := 0, cursor := s'.cursor.setState Style.substitution }) h.rest
        parens := fun _ => rfl
        flat := fun hflat => h.flat (hflat.imp_right fun hstate =>
          absurd hstate (show Style.substitution ≠ Style.commentLine by decide))
        block := h.block }

theorem start (hrel : v.Closed Tcl.loose rel) (h : Inside strict v rel s s') (hend : s.cursor.atLineEnd = false)
    (hvisible : s.cursor.cur.isSpace = false → s.visible = true) : Next strict v rel s.start s'.start := by
  have hoperator := h.setState hrel (show Style.operator ≠ Style.substitution by decide) (by decide)
  have hshows : ∀ x : Char, Code.isSpace x.toNat = false → s.cursor.sees x = true → s.visible = true := by
    intro x hx hsees
    rw [Cursor.sees, Code.is, beq_iff_eq] at hsees
    exact hvisible (by rw [hsees, hx])
  have hsees := h.cursor.sees h.lt_reach
  have hnumber := h.cursor.sees_and_next h.lt_reach (x := '.') (by decide) Code.isDigit
  have hcommand : (isWordStart s.cursor.cur && s'.commandExpected) = (isWordStart s.cursor.cur && s.commandExpected) := by
    rw [h.commandExpected]
  have hmodifier := h.cursor.sees_and_next h.lt_reach (x := '-') (by decide) (fun x => !x.isDigit)
  unfold Scan.start
  dsimp only
  rw [h.cursor.cur h.lt_reach, hsees '.', hsees '\x7b', hsees '\x7d', hsees ';', hsees '$', hsees '-', hnumber, hcommand,
    hmodifier]
  refine .ite (fun _ => .of_forward (h.setState hrel (by decide) (by decide)) hend) fun _ => ?_
  refine .ite (fun _ => .of_forward (h.setState hrel (by decide) (by decide)) hend) fun _ => ?_
  refine .ite (fun _ => .of_forward (h.setState hrel (by decide) (by decide)) hend) fun _ => ?_
  refine .ite (fun hsees => .of_forward ?_ hend) fun _ => ?_
  . exact (hoperator.withDepth (hshows '\x7b' rfl hsees) (show Style.operator ≠ Style.commentLine by decide) 1).withCommand true
  refine .ite (fun hsees => .of_forward ?_ hend) fun _ => ?_
  . exact hoperator.withDepth (hshows '\x7d' rfl hsees) (show Style.operator ≠ Style.commentLine by decide) (-1)
  refine .ite (fun _ => .of_forward (hoperator.withCommand true) hend) fun _ => ?_
  refine .ite (fun _ => .of_forward hoperator hend) fun _ => ?_
  refine .ite (fun _ => .of_forward (h.withCommand true) hend) fun _ => ?_
  refine .ite (fun hsees => h.startSubstitution hrel hend hsees) fun _ => ?_
  exact .ite (fun _ => .of_forward (h.setState hrel (by decide) (by decide)) hend) fun _ => .of_forward h hend

theorem enter (hrel : v.Closed Tcl.loose rel) (h : Inside strict v rel s s') (hend : s.cursor.atLineEnd = false) :
    Next strict v rel s.enter s'.enter := by
  have hcomment := h.startComment hrel
  have hend' : s.startComment.cursor.atLineEnd = false := by
    rw [← hend]
    unfold Scan.startComment
    split
    . split
      . rfl
      . split <;> rfl
    . rfl
  unfold Scan.enter
  dsimp only
  generalize s.startComment = t at *
  generalize s'.startComment = t' at *
  have hvisible := hcomment.withVisible (!t.cursor.cur.isSpace)
  rw [hcomment.cursor.cur hcomment.lt_reach, hcomment.cursor.state]
  refine .ite (fun _ => .of_forward (hvisible.withEscaped true) hend') fun _ => ?_
  refine .ite (fun _ => hvisible.start hrel hend' ?_) fun _ => .of_forward hvisible hend'
  intro hspace
  show (t.visible || !t.cursor.cur.isSpace) = true
  rw [hspace, Bool.not_false, Bool.or_true]

theorem stepInQuote (hrel : v.Closed Tcl.loose rel) (h : Inside strict v rel s s') (hend : s.cursor.atLineEnd = false) :
    Next strict v rel s.stepInQuote s'.stepInQuote := by
  unfold Scan.stepInQuote
  dsimp only
  rw [h.cursor.cur h.lt_reach, h.cursor.sees h.lt_reach]
  refine .ite (fun hquote => ?_) fun _ => .ite (fun hone => ?_) fun _ => .of_forward (h.withEscaped _) hend
  . have hcur := Code.isInner_of_eq (by decide) hquote
    have hforward := (h.forwardSetState hrel hcur (show Style.default ≠ Style.substitution by decide) (by decide)).withVisible true
    simp only [Bool.or_true] at hforward
    exact .of_again hforward (h.passed hcur _).1 (h.passed hcur _).2
  . have hcur := Code.isInner_of_isOneOf (by decide) hone
    have hset := h.setState hrel (show Style.operator ≠ Style.substitution by decide) (by decide)
    have hforward := hset.forwardSetState hrel hcur (show Style.inQuote ≠ Style.substitution by decide) (by decide)
    exact .of_again (hforward.withCommand _) (hset.passed hcur _).1 (hset.passed hcur _).2

theorem stepInState (hrel : v.Closed Tcl.loose rel) (h : Inside strict v rel s s') (hend : s.cursor.atLineEnd = false) :
    Next strict v rel s.stepInState s'.stepInState := by
  have hdefault := h.setState hrel (show Style.default ≠ Style.substitution by decide) (by decide)
  unfold Scan.stepInState
  dsimp only
  rw [h.cursor.state, h.cursor.cur h.lt_reach]
  split
  . exact h.stepInQuote hrel hend
  . split
    . exact h.enter hrel hend
    . exact hdefault.enter hrel hend
  . exact hdefault.enter hrel hend
  . exact h.enter hrel hend

theorem stepInLine (hrel : v.Closed Tcl.loose rel) (h : Inside strict v rel s s') (hend : s.cursor.atLineEnd = false) :
    Next strict v rel s.stepInLine s'.stepInLine := by
  have hclosed := h.withOpened .nothing
  have hopened : s'.opened = s.opened := by rw [h.rest]
  unfold Scan.stepInLine
  dsimp only
  rw [h.cursor.atLineStart h.lt_reach, h.cursor.cur h.lt_reach, hopened]
  refine .ite (fun _ => ?_) fun _ => h.stepInState hrel hend
  split
  . exact .of_forward (hclosed.setState hrel (show Style.comment ≠ Style.substitution by decide) (by decide)) hend
  . exact (hclosed.setState hrel (show Style.inQuote ≠ Style.substitution by decide) (by decide)).stepInState hrel hend
  . have hset := hclosed.setState hrel (show Style.default ≠ Style.substitution by decide) (by decide)
    exact (hset.withCommand (isWordStart s.cursor.cur || s.cursor.cur.isSpace)).stepInState hrel hend

/--
A line end leaves a block of comment lines, if one is open, as the only open brace.
-/
theorem foldComment_spec (h : Inside strict v rel s s') (hstrict : strict) (foldComments : Bool) :
    ((s.foldComment foldComments).inCommentBlock = true → (s.foldComment foldComments).depth = 1)
      ∧ ((s.foldComment foldComments).lineDepth = s.lineDepth ∨ (s.foldComment foldComments).lineDepth = 0) := by
  unfold foldComment
  split
  . next hcomment =>
    have hstate : s.cursor.state = Style.commentLine := by
      simp only [Bool.and_eq_true, beq_iff_eq] at hcomment
      exact hcomment.2
    split
    . exact ⟨fun _ => rfl, .inl rfl⟩
    . exact ⟨fun hblock => (h.flat (.inr hstate)).trans (h.block hstrict hblock), .inl rfl⟩
  . split
    . next hclose =>
      simp only [Bool.and_eq_true] at hclose
      refine ⟨nofun, .inr ?_⟩
      show s.lineDepth - 1 = 0
      rw [h.block hstrict hclose.2]
      rfl
    . next hkeep =>
      refine ⟨?_, .inl rfl⟩
      intro hblock
      have hblock : s.inCommentBlock = true := hblock
      rw [hblock, Bool.and_true, Bool.not_eq_true] at hkeep
      exact (h.flat (.inl hkeep)).trans (h.block hstrict hblock)

theorem foldComment_rest (h : Inside strict v rel s s') (foldComments : Bool) :
    s'.foldComment foldComments = { s.foldComment foldComments with cursor := s'.cursor, parens := s'.parens } := by
  obtain ⟨c', parens', hc, rfl⟩ := h.exists_eq
  unfold foldComment
  dsimp only
  rw [hc.state]
  split
  . split <;> rfl
  . split <;> rfl

end Inside

end Scan

end Highlight.Tcl
