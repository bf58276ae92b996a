import Highlight.Proofs.Sql.Comment
import Highlight.Proofs.WholeText

/-!
What becomes of the bytes of an open token of SQL: they get one style, all at once.
-/

namespace Highlight.Sql

open LineIndex

variable {keywords : Keywords} {doc : Document} {kind : Style → Bool} {known : Bool} {start stop : Nat}

/--
A pass over all of a text comes by a scan, and is not over there.
-/
def Visits (keywords : Keywords) (doc : Document) (s : Scan) : Prop :=
  Run keywords doc 0 doc.size (.begin doc 0) s ∧ s.pos < doc.size

/--
The styles of words.
-/
def wordStyles : List Style :=
  [Style.number, Style.word, Style.databaseObject, Style.command, Style.userWord1, Style.userWord2, Style.userWord3, Style.userWord4,
    Style.identifier]

/--
A kind of styles that a token keeps when it is painted with another style than the one it has been open with.
-/
structure IsKept (kind : Style → Bool) : Prop where
  word : ∀ keywords first word, kind (Scan.wordStyle keywords first word) = kind Style.word
  docKeyword : ∀ style, isDocKeyword style = true → kind style = kind Style.docKeyword

namespace Scan

variable {s t : Scan} {settings : Settings}

theorem wordStyle_mem (keywords : Keywords) (first : Code) (word : String) : wordStyle keywords first word ∈ wordStyles := by
  unfold wordStyle
  split
  . decide
  . split
    . decide
    . split
      . decide
      . split
        . decide
        . split
          . decide
          . split
            . decide
            . split
              . decide
              . split
                . decide
                . decide

theorem isKept_of_all (hword : wordStyles.all (fun style => kind style == kind Style.word) = true)
    (herror : kind Style.docKeywordError = kind Style.docKeyword) : IsKept kind where
  word := fun keywords first word => beq_iff_eq.mp (List.all_eq_true.mp hword _ (wordStyle_mem keywords first word))
  docKeyword := by
    intro style hstyle
    unfold isDocKeyword at hstyle
    split at hstyle
    . rfl
    . exact herror
    . cases hstyle

theorem isKept_isLineStyle : IsKept isLineStyle :=
  isKept_of_all (by decide) rfl

section Token

variable (hkind : IsKept kind)
include hkind

/--
A turn leaves the open token as it is, or paints all of it.
-/
theorem turn_token (s : Scan) (settings : Settings) : (s.turn settings).pen = s.pen ∧ (s.turn settings).state = s.state
    ∨ ∃ stop style, s.pos ≤ stop ∧ kind style = kind s.state
      ∧ (s.pen.colourTo stop style).Onward (s.turn settings).pen := by
  -- A word gets its style where it ends.
  by_cases hword : s.state = Style.word
  . rw [turn_of_word hword, stepInWord]
    split
    . exact .inl ⟨rfl, rfl⟩
    . dsimp only
      refine .inr ⟨s.pos, wordStyle settings.keywords (codeAt s.doc s.pen.segment) (s.token 80), Nat.le_refl _, ?_, ?_⟩
      . rw [hkind.word, hword]
      . exact (enters_enter { s with pen := s.pen.colourTo s.pos _ }).onward
  . generalize s.turn settings = t, s.turn_spec settings = h
    cases h with
    | stay _ => exact .inl ⟨rfl, rfl⟩
    | skip _ _ => exact .inl ⟨rfl, rfl⟩
    | start style _ _ => exact .inr ⟨_, s.state, Nat.le_refl _, rfl, .refl _⟩
    | operator hstate _ => exact .inr ⟨_, Style.default, Nat.le_refl _, by rw [hstate], .colourTo _ _ _⟩
    | keyword _ _ => exact .inr ⟨_, s.state, Nat.le_refl _, rfl, .refl _⟩
    | keywordEnd style hstate hkeyword =>
      exact .inr ⟨_, style, Nat.le_refl _, by rw [hstate, hkind.docKeyword _ hkeyword], .refl _⟩
    | leave stop style pos hleaves henters =>
      refine .inr ⟨stop, style, ?_, ?_, henters.onward⟩
      . cases hleaves with
        | word _ _ => exact Nat.le_refl _
        | line _ => exact Nat.le_refl _
        | keyword _ => exact Nat.le_refl _
        | comment _ _ => exact Nat.le_succ _
        | string _ _ => exact Nat.le_succ _
      . cases hleaves with
        | word _ hstate => exact absurd hstate hword
        | line _ => rfl
        | keyword hstate => rw [hstate, hkind.docKeyword _ rfl]
        | comment _ _ => rfl
        | string _ _ => rfl

/--
The bytes from `start` up to `stop` are painted with one style, or they lie in the open token. It is known of which kind they are.
-/
inductive Together (kind : Style → Bool) (known : Bool) (start stop : Nat) (s : Scan) : Prop where
  | painted (style : Style) : stop ≤ s.pen.segment → kind style = known → (∀ i, start ≤ i → i < stop → s.doc.styleAt i = style)
    → Together kind known start stop s
  | opened : s.pen.segment ≤ start → stop ≤ s.pos → kind s.state = known → Together kind known start stop s

omit hkind in
theorem together_colourTo {pen : Pen} {style : Highlight.Style} {pos : Nat} (hdoc : pen.doc.WellFormed) (hsegment : pen.segment ≤ start)
    (hpos : stop ≤ pos) (hsize : stop ≤ pen.doc.size) : ∀ i, start ≤ i → i < stop → (pen.colourTo pos style).doc.styleAt i = style := by
  intro i hle hlt
  exact Pen.styleAt_colourTo hdoc (by omega) (by omega) (by omega) style

theorem Together.step (h : s.Together kind known start stop) (hdoc : s.doc.WellFormed) (hsize : stop ≤ s.doc.size) (settings : Settings) :
    (s.step settings).Together kind known start stop := by
  cases hlead : s.atLead with
  | true =>
    rw [step_of_lead hlead]
    cases h with
    | painted style hsegment hstyle hbytes => exact .painted style hsegment hstyle hbytes
    | opened hsegment hpos hstate => exact .opened hsegment (Nat.le_add_right_of_le hpos) hstate
  | false =>
    have honward := (turn_spec s settings).onward
    rw [step_of_turn hlead]
    cases h with
    | painted style hsegment hstyle hbytes =>
      refine .painted style (Nat.le_trans hsegment honward.segment_le) hstyle ?_
      intro i hle hlt
      rw [← hbytes i hle hlt]
      exact styleAt_of_onward honward (by omega)
    | opened hsegment hpos hstate =>
      rcases turn_token hkind s settings with ⟨hpen, hstate'⟩ | ⟨pos, style, hle, hstyle, honward⟩
      . have hturn := (turn_spec s settings).pos_cases
        exact .opened (hpen ▸ hsegment) (show stop ≤ (s.turn settings).pos + 1 by omega) (hstate' ▸ hstate)
      . have hreach : stop ≤ (s.pen.colourTo pos style).segment := by
          have : stop ≤ s.pen.doc.size := hsize
          rw [Pen.segment_colourTo]
          omega
        refine .painted style (Nat.le_trans hreach honward.segment_le) (hstyle.trans hstate) ?_
        intro i hlow hlt
        have hbyte := styleAt_of_onward honward (show i < (s.pen.colourTo pos style).segment by omega)
        exact hbyte.trans (together_colourTo hdoc hsegment (by omega) hsize i hlow hlt)

end Token

end Scan

section Pass

variable {s t : Scan}

theorem Visits.tail (h : Visits keywords doc s) : Run keywords doc 0 doc.size (.begin doc 0) (stepFrom keywords doc 0 s) :=
  Iterates.tail h.1 (decide_eq_true h.2)

variable (hkind : IsKept kind)
include hkind

theorem Run.together (hdoc : doc.WellFormed) (h : Run keywords doc 0 doc.size s t) (hsource : doc.SameSource s.doc)
    (htogether : s.Together kind known start stop) (hstop : stop ≤ doc.size) : t.Together kind known start stop ∧ doc.SameSource t.doc := by
  refine h.invariant (fun t => t.Together kind known start stop ∧ doc.SameSource t.doc) ?_ ⟨htogether, hsource⟩
  rintro t _ ⟨ht, hsame⟩
  exact ⟨ht.step hkind (hsame.wellFormed hdoc) (by rwa [hsame.size]) _, hsame.trans (t.onward_step _).sameSource⟩

/--
Bytes that are painted together have one style in the end.
-/
theorem Run.exists_styleAt_pass (hdoc : doc.WellFormed) (h : Run keywords doc 0 doc.size (.begin doc 0) s)
    (htogether : s.Together kind known start stop) (hstop : stop ≤ doc.size) :
    ∃ style, kind style = known ∧ ∀ i, start ≤ i → i < stop → (pass keywords doc 0 doc.size).styleAt i = style := by
  obtain ⟨t, hrun, hend, heq⟩ := exists_run keywords doc 0 doc.size
  have hrest : Run keywords doc 0 doc.size s t := h.rest hrun (decide_eq_false (by omega))
  obtain ⟨ht, hsource⟩ := hrest.together hkind hdoc (Run.onward h).sameSource htogether hstop
  rw [heq]
  cases ht with
  | painted style hsegment hstyle hbytes =>
    refine ⟨style, hstyle, fun i hle hlt => ?_⟩
    rw [Pen.styleAt_colourTo_of_lt (by omega)]
    exact hbytes i hle hlt
  | opened hsegment hpos hstate =>
    exact ⟨t.state, hstate, Scan.together_colourTo (hsource.wellFormed hdoc) hsegment hstop (hsource.size.symm ▸ hstop)⟩

end Pass

end Highlight.Sql
