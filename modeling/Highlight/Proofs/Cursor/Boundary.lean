import Highlight.Proofs.Cursor.Tiles
import Highlight.Proofs.Document.Lines
import Mathlib.Logic.Function.Iterate

/-!
The characters of a line one behind the other, and the places between them in a double-byte code page.
-/

namespace Highlight

/--
Where the character behind the one at `pos` starts.
-/
def Document.nextChar (doc : Document) (pos : Nat) : Nat :=
  pos + (doc.decodeAt pos).2

namespace CharBoundary

section Any

variable {encoding : Encoding} {text : Array UInt8} {p q : Nat}

/--
A character between two places ends before the second one.
-/
theorem add_le (hp : CharBoundary encoding text p) (hq : CharBoundary encoding text q) (hlt : p < q) :
    p + (encoding.decodeAt text p).2 ≤ q := by
  induction hk : p + q using Nat.strongRecOn generalizing p q with
  | ind k ih =>
    cases hq with
    | front => exact absurd hlt (Nat.not_lt_zero p)
    | @behind q hq hsize =>
      have hwidth := encoding.decodeAt_width_pos text q
      rcases Nat.lt_trichotomy p q with hlow | rfl | hhigh
      . have hle := ih (p + q) (by omega) hp hq hlow rfl
        omega
      . exact Nat.le_refl _
      . have hle := ih (q + p) (by omega) hq hp hhigh rfl
        omega

end Any

section Line

variable {doc : Document} {line count : Nat}

theorem of_iterate (hdoc : doc.WellFormed) (hlt : doc.nextChar^[count] (doc.lineStart line) < doc.size) :
    CharBoundary doc.encoding doc.text (doc.nextChar^[count] (doc.lineStart line))
      ∧ doc.lineStart line ≤ doc.nextChar^[count] (doc.lineStart line) := by
  induction count with
  | zero =>
    exact ⟨.of_startsLine (hdoc.startsLine_lineStart (hdoc.lt_lineCount hlt)).1, Nat.le_refl _⟩
  | succ count ih =>
    rw [Function.iterate_succ_apply', Document.nextChar] at hlt ⊢
    obtain ⟨hboundary, hle⟩ := ih (by omega)
    exact ⟨hboundary.behind (show _ < doc.size by omega), by omega⟩

end Line

section DoubleByte

variable {page : CodePage} {text : Array UInt8} {pos : Nat} {b : UInt8}

theorem width_of_lead (hb : text[pos]? = some b) (hlead : page.isLeadByte b = true) (hsize : pos + 1 < text.size) :
    ((Encoding.doubleByte page).decodeAt text pos).2 = 2 := by
  unfold Encoding.decodeAt
  rw [hb, Array.getElem?_eq_getElem hsize]
  dsimp only
  rw [if_pos hlead]

theorem lead_of_width (h : ((Encoding.doubleByte page).decodeAt text pos).2 = 2) :
    ∃ b, text[pos]? = some b ∧ page.isLeadByte b = true ∧ pos + 1 < text.size := by
  rcases (Encoding.doubleByte page).decodeAt_cases text pos with
    ⟨_, heq⟩ | ⟨_, _, heq⟩ | ⟨_, _, hpage, _⟩ | ⟨_, b, _, hpage, hb, htrail, hlead, _⟩
  . rw [heq] at h
    cases h
  . rw [heq] at h
    cases h
  . cases hpage
  . cases hpage
    exact ⟨b, hb, hlead, (Array.getElem?_eq_some_iff.mp htrail).1⟩

/--
A byte that is no lead byte is the last one of its character.
-/
theorem of_not_lead (hb : text[pos]? = some b) (hlead : page.isLeadByte b = false) :
    CharBoundary (.doubleByte page) text (pos + 1) := by
  refine front.of_le (Nat.zero_le _) (Array.getElem?_eq_some_iff.mp hb).1 ?_
  intro p hp
  rcases (Encoding.doubleByte page).decodeAt_cases text p with
    ⟨_, heq⟩ | ⟨_, _, heq⟩ | ⟨_, _, hpage, _⟩ | ⟨_, b', _, hpage, hb', _, hlead', heq⟩
  . rw [heq]
    exact hp
  . rw [heq]
    exact hp
  . cases hpage
  . cases hpage
    have hne : p ≠ pos := by
      rintro rfl
      rw [hb, Option.some.injEq] at hb'
      rw [← hb', hlead] at hlead'
      cases hlead'
    rw [heq]
    dsimp
    omega

end DoubleByte

end CharBoundary

end Highlight
