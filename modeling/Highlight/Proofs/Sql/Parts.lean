import Highlight.Proofs.Session.Parts
import Highlight.Proofs.Sql.Resume

/-!
Colouring SQL in parts.
-/

namespace Highlight.Sql

open LineIndex

theorem colours_pass {session : Session} (h : session.lexer = lexer) : session.Colours (pass session.keywords) := by
  intro doc span start stop _ _ hlt _ hspan
  rw [h]
  exact colour_eq_pass (Nat.le_of_lt hlt) hspan session.keywords

theorem continues_pass {doc : Document} (keywords : Keywords) (hdoc : doc.WellFormed)
    (hsingle : ∀ b, doc.encoding.isLeadByte b = false) : Continues (pass keywords) doc (Resumable keywords doc) where
  sameSource := fun _ hstop => (framed_pass hdoc (Nat.zero_le _) hstop keywords).sameSource
  goOn := fun hstart hresume hle _ hmid hle' _ hstop => pass_goOn hdoc hsingle hstart hresume hle hmid hle' hstop

/--
Colouring a text of SQL in parts leaves what colouring it at once does, unless a line that is cut starts with
the end of a stream comment and the line above ends with a documentation keyword.
-/
theorem colourInParts_eq_colour_of_not_closesBehindKeyword (session : Session) (hsession : session.lexer = lexer) (text : Array UInt8)
    (options : Options) (cuts : List Nat) (hcuts : cuts.Pairwise (· ≤ ·))
    (hfree : ∀ cut ∈ cuts, cut < text.size →
      ¬ ClosesBehindKeyword (session.colour (.fresh text .singleByte options) 0 text.size) (lineFloor text cut)) :
    session.colourInParts (.fresh text .singleByte options) cuts = session.colour (.fresh text .singleByte options) 0 text.size := by
  have hdoc := Document.wellFormed_fresh text .singleByte options
  have hsingle : ∀ b, (Document.fresh text .singleByte options).encoding.isLeadByte b = false := fun _ => rfl
  refine (continues_pass session.keywords hdoc hsingle).colourInParts_eq (colours_pass hsession) hdoc ?_ hcuts ?_
  . intro s _ _ hsegment
    cases hsegment
  . intro cut hmem hlt
    have hwhole := Session.Colours.colour_eq (colours_pass hsession) hdoc (Nat.lt_of_le_of_lt (Nat.zero_le cut) hlt) (.inr rfl)
    refine resumable_of_pass hdoc hsingle (Nat.le_trans (lineFloor_le text cut) (Nat.le_of_lt hlt)) ?_
    rw [← hwhole]
    exact hfree cut hmem hlt

/--
A comment with a documentation keyword, cut behind the keyword and in front of the end of the comment.
-/
theorem colourInParts_eq_colour_doc_keyword :
    let session := Session.ofLexer lexer
    let text := "/**\n@a b\n*/x\n".toUTF8.data
    (∀ cut ∈ [6, 9], cut < text.size →
      ¬ ClosesBehindKeyword (session.colour (.fresh text .singleByte .empty) 0 text.size) (lineFloor text cut))
    ∧ session.colourInParts (.fresh text .singleByte .empty) [6, 9] = session.colour (.fresh text .singleByte .empty) 0 text.size := by
  have hfree : ∀ cut ∈ [6, 9], cut < "/**\n@a b\n*/x\n".toUTF8.data.size →
      ¬ ClosesBehindKeyword ((Session.ofLexer lexer).colour (.fresh "/**\n@a b\n*/x\n".toUTF8.data .singleByte .empty) 0
        "/**\n@a b\n*/x\n".toUTF8.data.size) (lineFloor "/**\n@a b\n*/x\n".toUTF8.data cut) := by
    decide +kernel
  exact ⟨hfree, colourInParts_eq_colour_of_not_closesBehindKeyword (.ofLexer lexer) rfl _ .empty [6, 9] (by decide) hfree⟩

/--
Where a line ends with a documentation keyword and the next one starts with the end of the comment, a pass that
begins there ends the comment and one that comes by does not.
-/
theorem colourInParts_ne_colour_behind_keyword :
    let session := Session.ofLexer lexer
    let text := "/**\n@a\n*/x".toUTF8.data
    session.colourInParts (.fresh text .singleByte .empty) [7] ≠ session.colour (.fresh text .singleByte .empty) 0 text.size := by
  decide +kernel

end Highlight.Sql
