import Highlight.Proofs.Cursor.Moves
import Highlight.Proofs.Gibiane.Alike

/-!
What a step of Gibiane can do to the cursor: it leaves the open token or goes on with it, it enters another one, and it goes forward.
-/

namespace Highlight.Gibiane

open Cursor

variable {keywords : Keywords} {doc : Document} {c c' : Cursor} {s : Scan}

namespace Scan

/--
What can become of the open token: it goes on, it ends in front of the current character, or it is a string that ends with it.
-/
inductive Leaves (c : Cursor) : Cursor → Prop where
  | stays : c.state = Style.default ∨ c.state = Style.string ∨ c.state = Style.comment ∧ c.atLineEnd = false → Leaves c c
  | ends : c.state ≠ Style.string → Leaves c (c.setState Style.default)
  | closes (style : Highlight.Style) : c.state = Style.string → isQuote c.cur = true → style ∈ Style.string :: Style.words →
    Leaves c ((c.forward.changeState style).setState Style.default)

/--
What can begin at the current character: nothing, a token, or the gap behind a word.
-/
inductive Enters (c : Cursor) : Cursor → Prop where
  | stays : Enters c c
  | starts (style : Highlight.Style) : c.state = Style.default → c.cur.isInner = true → isToken style = true →
    Enters c (c.setState style)
  | ends (style : Highlight.Style) : c.state = Style.default → style ∈ Style.default :: Style.table :: Style.words →
    Enters c ((c.changeState style).setState Style.default)

theorem leaves (htoken : isToken c.state = true) (keywords : Keywords) (token : String) : Leaves c (leave keywords token c) := by
  rcases isToken_cases htoken with hstate | hstate | hstate | hstate
  . rw [leave_default keywords token hstate]
    split
    . exact .ends (by rw [hstate]; decide)
    . exact .stays (.inl hstate)
  . rw [leave_string keywords token hstate]
    split
    . next hquote => exact .closes _ hstate hquote (getD_quotedStyle?_mem _ _ _)
    . exact .stays (.inr (.inl hstate))
  . unfold leave
    rw [hstate]
    show Leaves c (if c.atLineEnd then c.setState Style.default else c)
    split
    . exact .ends (by rw [hstate]; decide)
    . next hinner => exact .stays (.inr (.inr ⟨hstate, Bool.eq_false_iff.mpr hinner⟩))
  . have hnone : c.state ≠ Style.string := by rw [hstate]; decide
    unfold leave
    rw [hstate]
    exact .ends hnone

theorem enters (s : Scan) (keywords : Keywords) (token : String) : Enters s.cursor (s.enter keywords token).cursor := by
  unfold enter
  dsimp only
  split
  . exact .stays
  . next hstate =>
    have hstate : s.cursor.state = Style.default := by simpa using hstate
    split
    . next hstar => exact .starts _ hstate (isInner_of_sees (by decide) (Bool.and_eq_true_iff.mp hstar).1) rfl
    . split
      . next hquote => exact .starts _ hstate (isInner_of_isQuote hquote) rfl
      . split
        . next hnumber => exact .starts _ hstate (isInner_of_seesNumber hnumber) rfl
        . split
          . refine .ends _ hstate ?_
            rcases List.mem_cons.mp (getD_wordStyle?_mem keywords token Style.default) with hdefault | hword
            . rw [hdefault]
              exact List.mem_cons_self
            . exact List.mem_cons_of_mem _ (List.mem_cons_of_mem _ hword)
          . split
            . exact .ends _ hstate (List.mem_cons_of_mem _ List.mem_cons_self)
            . exact .stays

namespace Leaves

theorem moves (h : Leaves c c') (kind : Highlight.Style → Bool) (hkind : ∀ style ∈ Style.words, kind style = kind Style.string) :
    Moves kind False c c' := by
  cases h with
  | stays => exact .refl
  | ends => exact .setState .refl _
  | closes style hstate hquote hstyle =>
    refine .setState (.changeState (.forward .refl (isInner_of_isQuote hquote)) style ?_) _
    rw [show c.forward.state = Style.string from (c.state_forwardBy 1).trans hstate]
    rcases List.mem_cons.mp hstyle with rfl | hword
    . rfl
    . exact hkind style hword

theorem state (h : Leaves c c') :
    c'.state = Style.default ∨ c'.state = Style.string ∨ c'.state = Style.comment ∧ c'.atLineEnd = false := by
  cases h with
  | stays hstate => exact hstate
  | ends => exact .inl rfl
  | closes => exact .inl rfl

end Leaves

namespace Enters

theorem moves (h : Enters c c') (kind : Highlight.Style → Bool)
    (hkind : ∀ style ∈ Style.table :: Style.words, kind style = kind Style.default) : Moves kind False c c' := by
  cases h with
  | stays => exact .refl
  | starts => exact .setState .refl _
  | ends style hstate hstyle =>
    refine .setState (.changeState .refl style ?_) _
    rw [hstate]
    rcases List.mem_cons.mp hstyle with rfl | hother
    . rfl
    . exact hkind style hother

theorem pos_eq (h : Enters c c') : c'.pos = c.pos := by
  cases h <;> rfl

theorem state (h : Enters c c') (htoken : isToken c.state = true) : isToken c'.state = true := by
  cases h with
  | stays => exact htoken
  | starts style _ _ hstyle => exact hstyle
  | ends => rfl

/--
What begins does not reach over the line end.
-/
theorem loose_state (h : Enters c c') (hc : c.Settled) (hloose : c.atLineEnd = true → loose c.state = true)
    (hend : c'.atLineEnd = true) : loose c'.state = true := by
  cases h with
  | stays => exact hloose hend
  | starts style _ hinner _ =>
    have hend : c.atLineEnd = true := hend
    rw [hc.atLineEnd_of_isInner hinner] at hend
    cases hend
  | ends => rfl

end Enters

theorem first_enter (s : Scan) (keywords : Keywords) (token : String) : (s.enter keywords token).first = s.first := by
  unfold enter
  dsimp only
  repeat' split
  all_goals rfl

/--
A scan of a pass over all of a text.
-/
structure OnText (doc : Document) (s : Scan) : Prop where
  cursor : s.cursor.OnText doc
  token : isToken s.cursor.state = true
  kept : s.Kept 0
  first : s.first = 0
  begun : s.cursor.pos = 0 → s.cursor.state = Style.default

/--
The two parts of a step in front of its going forward, and where the cursor stands behind them.
-/
theorem OnText.parts (h : s.OnText doc) (hpos : s.cursor.pos ≤ doc.size) (keywords : Keywords) :
    ∃ left entered, Leaves s.cursor left ∧ left.OnText doc ∧ left.pos ≤ doc.size ∧ Enters left entered.cursor
      ∧ entered.cursor.OnText doc ∧ entered.cursor.pos ≤ doc.size ∧ s.cursor.pos ≤ entered.cursor.pos
      ∧ entered = (s.withCursor left).enter keywords (s.cursor.tokenLower 99)
      ∧ s.step keywords = entered.withCursor entered.cursor.forward := by
  have hleaves := leaves h.token keywords (s.cursor.tokenLower 99)
  obtain ⟨hleft, hle, hpos', _⟩ := (hleaves.moves (fun _ => true) fun _ _ => rfl).onText h.cursor hpos
  have henters := enters (s.withCursor (leave keywords (s.cursor.tokenLower 99) s.cursor)) keywords (s.cursor.tokenLower 99)
  obtain ⟨hentered, hle', hpos'', _⟩ := (henters.moves (fun _ => true) fun _ _ => rfl).onText hleft hpos'
  exact ⟨_, _, hleaves, hleft, hpos', henters, hentered, hpos'', Nat.le_trans hle hle', rfl, rfl⟩

theorem OnText.step (h : s.OnText doc) (hpos : s.cursor.pos ≤ doc.size) (hsingle : ∀ page, doc.encoding ≠ .doubleByte page)
    (keywords : Keywords) : (s.step keywords).OnText doc := by
  obtain ⟨left, entered, hleaves, hleft, _, henters, hentered, hpos', _, heq, hstep⟩ := h.parts hpos keywords
  have hmore : entered.cursor.more = true := hentered.more_iff.mpr hpos'
  have hfirst : entered.first = 0 := by
    rw [heq, first_enter]
    exact h.first
  have htoken : isToken left.state = true := by
    rcases hleaves.state with hstate | hstate | ⟨hstate, _⟩ <;> rw [hstate] <;> rfl
  have hloose : left.atLineEnd = true → loose left.state = true := by
    intro hend
    rcases hleaves.state with hstate | hstate | ⟨_, hinner⟩
    . rw [hstate]
      rfl
    . rw [hstate]
      rfl
    . exact absurd (hend.symm.trans hinner) Bool.noConfusion
  rw [hstep]
  exact
    { cursor := hentered.forward hpos'
      token := by
        show isToken entered.cursor.forward.state = true
        rw [state_forward hmore]
        exact henters.state htoken
      kept := by
        refine kept_forward hentered.settled hmore ?_ (by omega) (henters.loose_state hleft.settled hloose) ?_ 0
        . intro page hpage
          exact hsingle page (hentered.source.encoding.symm.trans hpage)
        . subst heq
          exact fresh_enter _ _ _
      first := hfirst
      begun := by
        intro hzero
        have hzero : entered.cursor.forward.pos = 0 := hzero
        have hwidth := hentered.settled.width_pos
        rw [pos_forward hmore] at hzero
        omega }

end Scan

end Highlight.Gibiane
