import Highlight.Proofs.Session.Front
import Highlight.Proofs.Session.History

/-!
Colouring SQL behind the valid styles. A pass that goes on at a line start leaves what one from the start of the text
does, unless the line starts with the end of a comment and the one above ends with a documentation keyword.
-/

namespace Highlight.Sql

open LineIndex

/--
A text of which each byte is a character, or starts one without a look at lead bytes, and behind the valid styles of
which a pass can go on.
-/
def Passable (session : Session) (doc : Document) : Prop :=
  (∀ b, doc.encoding.isLeadByte b = false)
    ∧ (0 < doc.endStyled → doc.endStyled < doc.size → ¬ ClosesBehindKeyword (session.coloured doc) doc.endStyled)

section Resume

variable {session : Session} (hlexer : session.lexer = lexer)
include hlexer

theorem coloured_eq_pass {doc : Document} (hpos : 0 < doc.size) :
    session.coloured doc = pass session.keywords doc.anew 0 doc.size :=
  Session.Colours.colour_eq (colours_pass hlexer) doc.wellFormed_anew hpos (.inr rfl)

theorem sameSource_coloured (doc : Document) : doc.anew.SameSource (session.coloured doc) := by
  rcases Nat.eq_zero_or_pos doc.size with hzero | hpos
  . rw [Session.coloured, Session.colour_of_le (Nat.le_trans (Nat.min_le_left _ _) (Nat.le_of_eq hzero))]
    exact .refl _
  . rw [coloured_eq_pass hlexer hpos]
    exact (framed_pass doc.wellFormed_anew (Nat.zero_le _) (.inr rfl) session.keywords).sameSource

omit hlexer in
theorem styles_pass_anew {doc : Document} {stop : Nat} (hok : Passable session doc) (hpos : 0 < stop) (hstop : IsBoundary doc.text stop)
    {i : Nat} (hi : i < stop) :
    (pass session.keywords doc.anew 0 doc.size).styles[i]? = (pass session.keywords doc.anew 0 stop).styles[i]? := by
  rcases hstop with hstart | rfl
  . exact styles_pass_upTo doc.wellFormed_anew hok.1 hpos hstart (le_size_of_startsLine hstart) (Nat.le_refl _) hi
  . rfl

section GoOn

variable {doc : Document} {stop : Nat} (hok : Passable session doc) (hvalid : session.Valid False doc)
  (hlt : doc.endStyled < stop) (hstop : IsBoundary doc.text stop)
include hvalid hlt hstop

theorem startsLine_endStyled : startsLine doc.text doc.endStyled = true := by
  have hle : stop ≤ doc.size := hstop.le_size
  have hboundary := hvalid.isBoundary
  rw [(sameSource_coloured hlexer doc).text] at hboundary
  exact hboundary.startsLine (show doc.endStyled < doc.size by omega)

include hok

/--
A pass from scratch is one up to the end of the valid styles, and another one that begins there, in a document
that shows the same in front of it.
-/
theorem exists_part :
    ∃ part : Document, doc.anew.SameSource part ∧ (∀ i : Nat, i < doc.endStyled → doc.styles[i]? = part.styles[i]?)
      ∧ pass session.keywords part doc.endStyled stop = pass session.keywords doc.anew 0 stop := by
  have hle : stop ≤ doc.size := hstop.le_size
  have hstart := startsLine_endStyled hlexer hvalid hlt hstop
  have hwhole := coloured_eq_pass hlexer (show 0 < doc.size by omega)
  rcases Nat.eq_zero_or_pos doc.endStyled with hzero | hpos
  . rw [hzero]
    exact ⟨doc.anew, .refl _, fun i hi => absurd hi (Nat.not_lt_zero i), rfl⟩
  . have hstyles := fun i hi => hvalid.styles i hi
    have hfree := hok.2 hpos (by omega)
    rw [hwhole] at hstyles hfree
    refine ⟨pass session.keywords doc.anew 0 doc.endStyled, ?_, ?_, ?_⟩
    . exact (framed_pass doc.wellFormed_anew (Nat.zero_le _) (.inl hstart) session.keywords).sameSource
    . intro i hi
      rw [hstyles i hi]
      exact styles_pass_anew hok hpos (.inl hstart) hi
    . have hresume := resumable_of_pass doc.wellFormed_anew hok.1 (show doc.endStyled ≤ doc.size by omega) hfree
      exact pass_split doc.wellFormed_anew hok.1 hpos hstart (Nat.le_of_lt hlt) hle hresume

/--
A pass that goes on where the valid styles end leaves the styles of a pass over all of the text.
-/
theorem styles_goOn {i : Nat} (hi : i < stop) :
    (pass session.keywords doc doc.endStyled stop).styles[i]? = (pass session.keywords doc.anew 0 doc.size).styles[i]? := by
  have hwell := hvalid.wellFormed'
  have hle : stop ≤ doc.size := hstop.le_size
  have hstart := startsLine_endStyled hlexer hvalid hlt hstop
  rcases Nat.lt_or_ge i doc.endStyled with hfront | hge
  . rw [(framed_pass hwell (Nat.le_of_lt hlt) hstop session.keywords).styles i (.inl hfront), hvalid.styles i hfront,
      coloured_eq_pass hlexer (by omega)]
  . obtain ⟨part, hsame, hstyles, hsplit⟩ := exists_part hlexer hok hvalid hlt hstop
    have htext : doc.text = part.text := hsame.text.symm
    have hbegins : (View.ofRange part doc.endStyled stop stop).Begins part doc stop stop :=
      .ofText (hsame.wellFormed doc.wellFormed_anew) hwell htext hsame.encoding.symm hsame.options.symm (by rwa [← htext]) hlt
        (by rwa [← htext]) (Nat.le_refl stop) (by rwa [← htext])
    rw [styles_pass_anew hok (Nat.zero_lt_of_lt hlt) hstop hi, ← hsplit]
    exact styles_pass hbegins.shows rfl (Document.styleBefore_congr hstyles) (Nat.le_of_lt hlt) (Nat.le_refl stop) session.keywords hge hi

end GoOn

theorem resumes : session.Resumes False (Passable session) where
  sameSource := fun _ => sameSource_coloured hlexer _
  front := by
    intro doc doc' limit hok _ hencoding hoptions hpos htext hstart hstart'
    have hfront := sameFront hpos htext hstart hstart' hlexer hok.1 doc.options
    refine ⟨?_, False.elim⟩
    have hanew : doc'.anew = .fresh doc'.text doc.encoding doc.options := by rw [Document.anew, hencoding, hoptions]
    rw [Session.coloured, hanew]
    exact hfront.styles
  goOn := by
    intro doc stop hok hvalid hlt hstop
    have hwell := hvalid.wellFormed'
    have hle : stop ≤ doc.size := hstop.le_size
    have hpos : 0 < doc.size := by omega
    have hstart := startsLine_endStyled hlexer hvalid hlt hstop
    have hcolour : session.colour doc doc.endStyled stop = pass session.keywords doc doc.endStyled stop := by
      rw [Session.Colours.colour_of_lt (colours_pass hlexer) hwell (by omega), Nat.min_eq_left hle, lineCeil_of_isBoundary hstop,
        lineFloor_of_startsLine hstart]
    have hframed := framed_pass hwell (Nat.le_of_lt hlt) hstop session.keywords
    rw [hcolour, coloured_eq_pass hlexer hpos]
    refine ⟨hframed.sameSource, fun i hi => styles_goOn hlexer hok hvalid hlt hstop hi, False.elim, fun l _ => ?_⟩
    rw [hframed.levels]

end Resume

end Highlight.Sql
