import Highlight.Proofs.Haskell.Resume
import Highlight.Proofs.R.Resume
import Highlight.Proofs.Rust.Resume
import Highlight.Proofs.Scss.Resume
import Highlight.Proofs.Sql.Parts
import Highlight.Proofs.Tcl.Walk

/-!
The front of a text, up to a line start. What a pass over all of the text leaves there depends on nothing that
follows.
-/

namespace Highlight

open LineIndex

namespace Document

/--
Two documents in which the bytes in front of `pos` have the same styles, and the lines in front of `line` the same
states.
-/
structure SameFront (pos line : Nat) (doc doc' : Document) : Prop where
  styles : ∀ i : Nat, i < pos → doc'.styles[i]? = doc.styles[i]?
  lineStates : ∀ l : Nat, l < line → doc'.lineStates[l]? = doc.lineStates[l]?

theorem sameFront_zero (doc doc' : Document) : doc.SameFront 0 0 doc' where
  styles := fun i hi => absurd hi (Nat.not_lt_zero i)
  lineStates := fun l hl => absurd hl (Nat.not_lt_zero l)

theorem lineStates_fresh {text : Array UInt8} {encoding : Encoding} {options : Options} {l : Nat}
    (hl : l < (fresh text encoding options).lineCount) : (fresh text encoding options).lineStates[l]? = some 0 :=
  Array.getElem?_eq_some_iff.mpr ⟨by rwa [(wellFormed_fresh text encoding options).lineStates], Array.getElem_replicate ..⟩

end Document

section Front

variable {text text' : Array UInt8} {pos : Nat} (hpos : 0 < pos) (htext : ∀ i : Nat, i < pos → text'[i]? = text[i]?)
  (hstart : startsLine text pos = true) (hstart' : startsLine text' pos = true)
include hpos htext hstart hstart'

/--
Passes over all of two texts with the same front begin with the same.
-/
theorem View.begins_fresh (encoding : Encoding) (options : Options) :
    (View.ofFront (.fresh text encoding options) (.fresh text' encoding options) pos text.size text'.size).Begins
      (.fresh text encoding options) (.fresh text' encoding options) text.size text'.size :=
  .ofFront (Document.wellFormed_fresh text encoding options) (Document.wellFormed_fresh text' encoding options) rfl rfl hpos htext
    hstart hstart' (le_size_of_startsLine hstart) (le_size_of_startsLine hstart') (.inr rfl) (.inr rfl)

theorem Document.sameLineStates_fresh (encoding : Encoding) (options : Options) {l : Nat}
    (hl : l < (ofText text).lineOf pos) :
    (Document.fresh text' encoding options).lineStates[l]? = (Document.fresh text encoding options).lineStates[l]? := by
  have hdoc := Document.wellFormed_fresh text encoding options
  have hdoc' := Document.wellFormed_fresh text' encoding options
  have hline : (Document.fresh text' encoding options).lineOf pos = (ofText text).lineOf pos :=
    (View.begins_fresh hpos htext hstart hstart' encoding options).shows.lineOf (Nat.le_refl pos)
  have hcount : (ofText text).lineOf pos < _ := hdoc.lineOf_lt pos
  have hcount' := hdoc'.lineOf_lt pos
  rw [lineStates_fresh (by omega), lineStates_fresh (by omega)]

/--
What a pass that never goes back leaves in front of a line start.
-/
theorem Colouring.Forward.sameFront {σ : Type} {m : Colouring σ} {session : Session} {encoding : Encoding} {options : Options}
    (h : m.Forward) (hdrives : m.Drives session)
    (hgoes : m.goesOn (.fresh text encoding options) 0 (.fresh text' encoding options) 0)
    (hgood : ∀ text : Array UInt8, 0 < text.size → m.Good (m.start (.fresh text encoding options) 0 text.size)) :
    (session.colour (.fresh text encoding options) 0 text.size).SameFront pos ((ofText text).lineOf pos)
      (session.colour (.fresh text' encoding options) 0 text'.size) := by
  have hdoc := Document.wellFormed_fresh text encoding options
  have hsize : 0 < text.size := Nat.lt_of_lt_of_le hpos (le_size_of_startsLine hstart)
  have hsize' : 0 < text'.size := Nat.lt_of_lt_of_le hpos (le_size_of_startsLine hstart')
  have hbegins := View.begins_fresh hpos htext hstart hstart' encoding options
  obtain ⟨hstyles, hstates⟩ := h.agree rfl hbegins hgoes (hgood text hsize) (hgood text' hsize')
    (fun l hl => Document.sameLineStates_fresh hpos htext hstart hstart' encoding options hl)
  rw [hdrives.colour_eq hdoc hsize (.inr rfl),
    hdrives.colour_eq (Document.wellFormed_fresh text' encoding options) hsize' (.inr rfl)]
  exact ⟨fun i hi => hstyles i (Nat.zero_le i) hi, hstates⟩

theorem Sql.sameFront {session : Session} (hsession : session.lexer = Sql.lexer) {encoding : Encoding}
    (hsingle : ∀ b, encoding.isLeadByte b = false) (options : Options) :
    (session.colour (.fresh text encoding options) 0 text.size).SameFront pos ((ofText text).lineOf pos)
      (session.colour (.fresh text' encoding options) 0 text'.size) := by
  have hdoc := Document.wellFormed_fresh text encoding options
  have hdoc' := Document.wellFormed_fresh text' encoding options
  have hle := le_size_of_startsLine hstart
  have hle' := le_size_of_startsLine hstart'
  have hshows := (View.begins_fresh hpos htext hstart hstart' encoding options).shows
  have hframed := framed_pass hdoc (Nat.zero_le text.size) (.inr rfl) session.keywords
  have hframed' := framed_pass hdoc' (Nat.zero_le text'.size) (.inr rfl) session.keywords
  rw [Session.Colours.colour_eq (colours_pass hsession) hdoc (Nat.lt_of_lt_of_le hpos hle) (.inr rfl),
    Session.Colours.colour_eq (colours_pass hsession) hdoc' (Nat.lt_of_lt_of_le hpos hle') (.inr rfl)]
  constructor
  . intro i hi
    rw [styles_pass_upTo hdoc hsingle hpos hstart hle (Nat.le_refl _) hi,
      styles_pass_upTo hdoc' hsingle hpos hstart' hle' (Nat.le_refl _) hi]
    exact styles_pass hshows rfl rfl (Nat.zero_le pos) (Nat.le_refl pos) session.keywords (Nat.zero_le i) hi
  . intro l hl
    rw [hframed.lineStates, hframed'.lineStates]
    exact Document.sameLineStates_fresh hpos htext hstart hstart' encoding options hl

end Front

/--
Text that follows a line start does not change what colouring leaves in front of it.
-/
theorem Session.sameFront_colour (language : Language) (hlanguage : language ≠ .gibiane) (session : Session)
    (hsession : session.lexer = language.lexer) (encoding : Encoding) (hencoding : encoding = .singleByte ∨ encoding = .utf8)
    (options : Options) (text text' : Array UInt8) (pos : Nat) (htext : ∀ i : Nat, i < pos → text'[i]? = text[i]?)
    (hstart : startsLine text pos = true) (hstart' : startsLine text' pos = true) :
    (session.colour (.fresh text encoding options) 0 text.size).SameFront pos ((ofText text).lineOf pos)
      (session.colour (.fresh text' encoding options) 0 text'.size) := by
  have hdoc := Document.wellFormed_fresh text encoding options
  have hdoc' := Document.wellFormed_fresh text' encoding options
  have hdouble : ∀ page, encoding ≠ .doubleByte page := by
    intro page hpage
    rcases hencoding with h | h <;> rw [h] at hpage <;> cases hpage
  rcases Nat.eq_zero_or_pos pos with rfl | hpos
  . rw [show (ofText text).lineOf 0 = 0 from hdoc.lineOf_zero]
    exact Document.sameFront_zero _ _
  -- In front of a text, nothing is looked up.
  cases language with
  | gibiane => exact absurd rfl hlanguage
  | rust =>
    have hforward : (Rust.pass True False Rust.loose session.keywords).Forward := Rust.forward_pass session.keywords
    refine hforward.sameFront hpos htext hstart hstart' (Rust.drives_pass hsession) ?_ ?_
    . refine ⟨rfl, ?_, rfl⟩
      rw [hdoc.lineOf_zero, hdoc'.lineOf_zero]
      rfl
    . intro text hsize
      exact Rust.good_pass session.keywords (Document.wellFormed_fresh _ _ _) startsLine_zero hsize (.inr rfl) (fun _ => rfl)
        (fun _ => hdouble)
  | haskell =>
    have hforward : (Haskell.pass False session.keywords options).Forward := Haskell.forward_pass session.keywords options
    refine hforward.sameFront hpos htext hstart hstart' (Haskell.drives_pass hsession options) ?_ ?_
    . refine ⟨rfl, ?_⟩
      rw [hdoc.lineOf_zero, hdoc'.lineOf_zero]
      rfl
    . intro text hsize
      exact Haskell.good_pass session.keywords (Document.wellFormed_fresh text encoding options) startsLine_zero hsize (.inr rfl) rfl
  | tcl =>
    have hforward : (Tcl.pass True False Tcl.loose session.keywords options).Forward := Tcl.forward_pass session.keywords options
    refine hforward.sameFront hpos htext hstart hstart' (Tcl.drives_pass hsession options) ?_ ?_
    . refine ⟨rfl, ?_⟩
      rw [hdoc.lineOf_zero, hdoc'.lineOf_zero]
      exact ⟨rfl, nofun⟩
    . intro text hsize
      exact Tcl.good_pass session.keywords (Document.wellFormed_fresh text encoding options) startsLine_zero hsize (.inr rfl)
        (fun _ => rfl) (fun _ => rfl)
  | scss =>
    refine (Scss.forward_colouring session.keywords).sameFront hpos htext hstart hstart' (Scss.drives_colouring hsession) ?_ ?_
    . refine ⟨rfl, ?_⟩
      rw [hdoc.lineOf_zero, hdoc'.lineOf_zero]
      rfl
    . intro text hsize
      exact Scss.good_start_ofText session.keywords (Document.wellFormed_fresh text encoding options) hsize hdouble
  | r =>
    refine (R.forward_colouring session.keywords).sameFront hpos htext hstart hstart' (R.drives_colouring hsession) rfl ?_
    intro text hsize
    exact R.good_start session.keywords (Document.wellFormed_fresh text encoding options) hsize
  | sql =>
    refine Sql.sameFront hpos htext hstart hstart' hsession ?_ options
    rcases hencoding with rfl | rfl
    . exact fun _ => rfl
    . exact fun _ => rfl

/--
A comment that the next line ends, or goes on with.
-/
theorem Session.sameFront_colour_open_comment :
    let session := Session.ofLexer Language.rust.lexer
    let text := "a/*\n*/b".toUTF8.data
    let text' := "a/*\n\"c".toUTF8.data
    (∀ i : Nat, i < 4 → text'[i]? = text[i]?) ∧ startsLine text 4 = true ∧ startsLine text' 4 = true
      ∧ (session.colour (.fresh text .utf8 .empty) 0 text.size).SameFront 4 ((ofText text).lineOf 4)
        (session.colour (.fresh text' .utf8 .empty) 0 text'.size) := by
  intro session text text'
  have htext : ∀ i : Nat, i < 4 → text'[i]? = text[i]? := by decide +kernel
  have hstart : startsLine text 4 = true := by decide +kernel
  have hstart' : startsLine text' 4 = true := by decide +kernel
  exact ⟨htext, hstart, hstart',
    sameFront_colour .rust (by decide) session rfl .utf8 (.inr rfl) .empty text text' 4 htext hstart hstart'⟩

end Highlight
