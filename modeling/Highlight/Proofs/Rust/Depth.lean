import Highlight.Proofs.Rust.Resume

/-!
How deep comments can nest. Each comment starts with two characters, so the depth is half of the size of a
text at most, and only texts of four gigabytes or more have depths that a line state does not hold. All other
texts can be coloured in parts.
-/

namespace Highlight.Rust

open LineIndex

variable {strict : Prop} {v : View} {rel : Style → Pen → Pen → Prop} {c c' : Cursor} {s s' t t' : Scan} {doc : Document}

theorem pos_le_forward (c : Cursor) : c.pos ≤ c.forward.pos := by
  unfold Cursor.forward
  split
  . exact Nat.le_add_right _ _
  . exact Nat.le_refl _

theorem pos_lt_limit (h : c.Alike v rel c') (hin : c.pos < v.reach) (hcur : c.cur.isInner = true) : c.pos < v.limit := by
  have hlt := h.forward_inner hin hcur
  have hwidth := h.settled.width_pos
  rw [Cursor.pos_forward (h.more hin)] at hlt
  unfold View.reach at hlt
  split at hlt <;> omega

namespace Scan

/--
From `s` to `t` the depth gets no larger, or by one behind the first of two characters in the text.
-/
def Grows (v : View) (s t : Scan) : Prop :=
  (t.nesting ≤ s.nesting ∧ s.cursor.pos ≤ t.cursor.pos)
    ∨ (t.nesting ≤ s.nesting + 1 ∧ s.cursor.pos < t.cursor.pos ∧ t.cursor.pos < v.limit ∧ t.cursor.state ≠ Style.default)

/--
The depth is half of what is passed at most.
-/
structure Shallow (v : View) (s : Scan) : Prop where
  pos : 2 * s.nesting ≤ s.cursor.pos
  limit : 2 * s.nesting ≤ v.limit

theorem Grows.of_pos (hnesting : t.nesting = s.nesting) (hpos : s.cursor.pos ≤ t.cursor.pos) : Grows v s t :=
  .inl ⟨Nat.le_of_eq hnesting, hpos⟩

/--
A comment that starts at the cursor is a level deeper.
-/
theorem Inside.grows_open (h : Inside strict v rel t t') (hpair : t.cursor.seesPair '/' '+' = true)
    (hstate : t.cursor.state = Style.commentNested) (hnesting : t.nesting = s.nesting + 1) (hpos : t.cursor.pos = s.cursor.pos) :
    Grows v s (t.withCursor t.cursor.forward) := by
  have hmore := h.cursor.more h.lt_reach
  have hwidth := h.cursor.settled.width_pos
  have hcur := Cursor.isInner_of_seesPair (show Code.isInner '/'.toNat = true by decide) hpair
  have hnext := h.isInner_forward (Code.isInner_of_is (show Code.isInner '+'.toNat = true by decide) (Cursor.next_of_seesPair hpair))
  have hforward := h.forward hcur
  have hlimit := pos_lt_limit hforward.cursor hforward.lt_reach hnext
  refine .inr ⟨Nat.le_of_eq hnesting, ?_, hlimit, ?_⟩
  . show s.cursor.pos < t.cursor.forward.pos
    rw [Cursor.pos_forward hmore]
    omega
  . show t.cursor.forward.state ≠ Style.default
    rw [Cursor.state_forward hmore, hstate]
    decide

theorem pos_le_closeComment (c : Cursor) : c.pos ≤ (closeComment c).pos :=
  Nat.le_trans (pos_le_forward c) (pos_le_forward c.forward)

theorem pos_le_closeString (c : Cursor) : c.pos ≤ (closeString c).pos := by
  unfold closeString
  split
  . exact Nat.le_trans (pos_le_forward c) (pos_le_forward c.forward)
  . exact pos_le_forward c

theorem pos_le_leaveString (c : Cursor) : c.pos ≤ (leaveString c).pos := by
  unfold leaveString
  split
  . split
    . exact pos_le_forward c
    . exact Nat.le_refl _
  . split
    . exact pos_le_closeString c
    . exact Nat.le_refl _

theorem pos_le_leaveCharacter (c : Cursor) : c.pos ≤ (leaveCharacter c).pos := by
  unfold leaveCharacter
  split
  . exact Nat.le_refl _
  . split
    . split
      . exact pos_le_forward c
      . exact Nat.le_refl _
    . split
      . exact pos_le_forward c
      . exact Nat.le_refl _

theorem pos_leaveIdentifier (keywords : Keywords) (c : Cursor) : (leaveIdentifier keywords c).pos = c.pos := by
  unfold leaveIdentifier
  split <;> rfl

theorem pos_leaveLine (c : Cursor) : (leaveLine c).pos = c.pos := by
  unfold leaveLine
  split <;> rfl

theorem grows_leaveNumber (s : Scan) : Grows v s s.leaveNumber := by
  unfold leaveNumber
  dsimp only
  split
  . exact .of_pos rfl (Nat.le_refl _)
  . split
    . exact .of_pos rfl (Nat.le_refl _)
    . split
      . exact .of_pos rfl (Nat.le_refl _)
      . exact .of_pos rfl (Nat.le_refl _)

theorem grows_leaveDocKeyword (keywords : Keywords) (s : Scan) : Grows v s (s.leaveDocKeyword keywords) := by
  unfold leaveDocKeyword
  dsimp only
  split
  . exact .of_pos rfl (pos_le_closeComment (s.cursor.changeState Style.docKeywordError))
  . split
    . exact .of_pos rfl (Nat.le_refl _)
    . split
      . exact .of_pos rfl (Nat.le_refl _)
      . exact .of_pos rfl (Nat.le_refl _)

section Steps

variable (hrel : v.Closed Rust.loose rel)
include hrel

theorem Inside.grows_leaveNested (h : Inside strict v rel s s') (hstate : s.cursor.state = Style.commentNested) :
    Grows v s s.leaveNested := by
  unfold Scan.leaveNested
  split
  . left
    have hforward := pos_le_forward (Scan.storeNesting { s with nesting := s.nesting - 1 }).cursor
    refine ⟨Nat.sub_le _ _, ?_⟩
    show s.cursor.pos ≤ (if _ then _ else _ : Cursor).pos
    split
    . exact Nat.le_trans hforward (pos_le_forward _)
    . exact hforward
  . split
    . next hpair =>
      have hstore := (h.withNesting (s.nesting + 1)).storeNesting hrel
      exact hstore.grows_open hpair hstate rfl rfl
    . exact .of_pos rfl (Nat.le_refl _)

theorem Inside.grows_leave (h : Inside strict v rel s s') (keywords : Keywords) : Grows v s (s.leave keywords) := by
  unfold Scan.leave
  dsimp only
  split
  . exact .of_pos rfl (Nat.le_refl _)
  . exact grows_leaveNumber s
  . exact .of_pos rfl (Nat.le_of_eq (pos_leaveIdentifier keywords s.cursor).symm)
  . split
    . exact .of_pos rfl (pos_le_closeComment s.cursor)
    . exact .of_pos rfl (Nat.le_refl _)
  . split
    . exact .of_pos rfl (pos_le_closeComment s.cursor)
    . split
      . exact .of_pos rfl (Nat.le_refl _)
      . exact .of_pos rfl (Nat.le_refl _)
  . exact .of_pos rfl (Nat.le_of_eq (pos_leaveLine s.cursor).symm)
  . split
    . exact .of_pos rfl (Nat.le_refl _)
    . split
      . exact .of_pos rfl (Nat.le_refl _)
      . exact .of_pos rfl (Nat.le_refl _)
  . exact grows_leaveDocKeyword keywords s
  . next hstate => exact h.grows_leaveNested hrel hstate
  . exact .of_pos rfl (pos_le_leaveString s.cursor)
  . exact .of_pos rfl (pos_le_leaveCharacter s.cursor)
  . exact .of_pos rfl (Nat.le_of_eq (pos_leaveLine s.cursor).symm)
  . split
    . exact .of_pos rfl (pos_le_closeString s.cursor)
    . exact .of_pos rfl (Nat.le_refl _)
  . split
    . exact .of_pos rfl (pos_le_closeString s.cursor)
    . exact .of_pos rfl (Nat.le_refl _)
  . exact .of_pos rfl (Nat.le_refl _)

omit hrel in
theorem Grows.ite {p : Prop} [Decidable p] {u : Scan} (ht : p → Grows v s t) (hu : ¬ p → Grows v s u) :
    Grows v s (if p then t else u) := by
  split
  . next hp => exact ht hp
  . next hp => exact hu hp

theorem Inside.grows_start (h : Inside strict v rel s s') : Grows v s s.start := by
  have hforward : ∀ style, s.cursor.pos ≤ (s.cursor.setState style).forward.pos := fun style => pos_le_forward (s.cursor.setState style)
  unfold Scan.start
  dsimp only
  refine .ite (fun _ => .of_pos rfl (Nat.le_refl _)) fun _ => .ite (fun _ => .of_pos rfl (hforward _)) fun _ =>
    .ite (fun _ => .of_pos rfl (Nat.le_refl _)) fun _ => .ite (fun hpair => ?_) fun _ => .ite (fun _ => .of_pos rfl (hforward _)) fun _ =>
    .ite (fun _ => .of_pos rfl (Nat.le_refl _)) fun _ => .ite (fun _ => .of_pos rfl (Nat.le_refl _)) fun _ =>
    .ite (fun _ => .of_pos rfl (Nat.le_refl _)) fun _ => .ite (fun _ => .of_pos rfl (Nat.le_refl _)) fun _ =>
    .ite (fun _ => .of_pos rfl ?_) fun _ => .of_pos rfl (Nat.le_refl _)
  . have hset := ((h.withNesting (s.nesting + 1)).storeNesting hrel).setState hrel Style.commentNested
    exact hset.grows_open hpair rfl rfl rfl
  . show s.cursor.pos ≤ (if _ then _ else _ : Cursor).pos
    split
    . exact hforward Style.operator
    . exact Nat.le_refl _

/--
A token that starts where another one has ended. No two comments start in one step.
-/
theorem Grows.enter (hgrows : Grows v s t) (h : Inside strict v rel t t') : Grows v s t.enter := by
  unfold Scan.enter
  split
  . next hstate =>
    rcases hgrows with ⟨hnesting, hpos⟩ | ⟨_, _, _, hother⟩
    . rcases h.grows_start hrel with ⟨hnesting', hpos'⟩ | ⟨hnesting', hpos', hlimit, hstate'⟩
      . exact .inl ⟨Nat.le_trans hnesting' hnesting, Nat.le_trans hpos hpos'⟩
      . exact .inr ⟨by omega, by omega, hlimit, hstate'⟩
    . exact absurd (beq_iff_eq.mp hstate) hother
  . exact hgrows

theorem Alike.shallow_step (h : Scan.Alike strict v rel s s') (hin : s.cursor.pos < v.reach) (hshallow : Shallow v s)
    (keywords : Keywords) : Shallow v (s.step keywords) := by
  have hinside := h.inside hrel hin
  have hknown := h.known_stored hin
  have hshallow : Shallow v (if s.cursor.atLineStart then s.storeNesting else s) := by
    split
    . exact ⟨hshallow.pos, hshallow.limit⟩
    . exact hshallow
  have hready := hinside.leave hrel hknown keywords
  have hgrows := Grows.enter hrel (hinside.grows_leave hrel keywords) hready.inside
  have hend := hready.enter hrel
  unfold Scan.step
  dsimp only
  generalize (if s.cursor.atLineStart then s.storeNesting else s) = r at *
  generalize (r.leave keywords).enter = t at *
  have hwidth := hend.inside.cursor.settled.width_pos
  have hforward := Cursor.pos_forward (hend.inside.cursor.more hend.inside.lt_reach)
  have hpos := hshallow.pos
  have hlimit := hshallow.limit
  constructor
  . show 2 * t.nesting ≤ t.cursor.forward.pos
    rcases hgrows with hgrows | hgrows <;> omega
  . show 2 * t.nesting ≤ v.limit
    rcases hgrows with hgrows | hgrows <;> omega

end Steps

end Scan

/--
Line states hold the depths of all texts of less than four gigabytes.
-/
theorem nestingFits_of_size_lt (keywords : Keywords) (hdoc : doc.WellFormed) (hsingle : ∀ page, doc.encoding ≠ .doubleByte page)
    (hsize : doc.size < 1 <<< 32) : NestingFits keywords doc := by
  intro hpos s hrun
  have hclosed : (View.ofRange doc 0 doc.size doc.size).Closed loose Pen.Equal := View.closed_equal rfl
  have hstart : Scan.Shallow (.ofRange doc 0 doc.size doc.size) (.ofSpan (doc.spanOf 0 doc.size) doc) := by
    have hline := Cursor.line_start hdoc startsLine_zero hpos (.inr rfl)
    have hnesting : (Scan.ofSpan (doc.spanOf 0 doc.size) doc).nesting = 0 := by
      rw [nesting_ofSpan, hline, hdoc.lineOf_eq, breaksBefore_zero]
      rfl
    constructor
    . rw [hnesting]
      exact Nat.zero_le _
    . rw [hnesting]
      exact Nat.zero_le _
  have hkept := hrun.invariant
    (fun s => Scan.Alike True (.ofRange doc 0 doc.size doc.size) Pen.Equal s s ∧ Scan.Shallow (.ofRange doc 0 doc.size doc.size) s) (by
      intro s hmore ⟨halike, hshallow⟩
      have hin := (halike.cursor.more'_iff rfl).mp hmore
      exact ⟨(halike.step hclosed hin keywords).1, halike.shallow_step hclosed hin hshallow keywords⟩)
    ⟨alike_start hdoc startsLine_zero hpos (.inr rfl) (fun _ => rfl) (fun _ => hsingle), hstart⟩
  have hlimit : 2 * s.nesting ≤ doc.size := hkept.2.limit
  rw [show 1 <<< 32 = 2 * (1 <<< 31) by decide] at hsize
  omega

theorem nestingFits_of_imp {keywords : Keywords} (hdoc : doc.WellFormed) (hsingle : ∀ page, doc.encoding ≠ .doubleByte page)
    (h : 1 <<< 32 ≤ doc.size → NestingFits keywords doc) : NestingFits keywords doc := by
  rcases Nat.lt_or_ge doc.size (1 <<< 32) with hlt | hge
  . exact nestingFits_of_size_lt keywords hdoc hsingle hlt
  . exact h hge

end Highlight.Rust
