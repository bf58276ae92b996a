import Highlight.Proofs.R.Resume
import Highlight.Proofs.Rust.Depth
import Highlight.Proofs.Session.History

/-!
Restyling after edits. A colouring that depends on nothing but the text in front of it goes on behind the valid styles, so
that a session of R or Rust has at any time the styles of its text.
-/

namespace Highlight

open LineIndex

namespace Colouring

variable {σ : Type} {m : Colouring σ} {storing : Prop} {session : Session} {doc doc' : Document} {front stop stop' : Nat}

/--
Passes over two texts with the same front leave the same there, however far each of them goes.
-/
theorem Local.agree_front (h : m.Local storing) (hdoc : doc.WellFormed) (hdoc' : doc'.WellFormed)
    (hencoding : doc'.encoding = doc.encoding) (hoptions : doc'.options = doc.options) (hpos : 0 < front)
    (htext : ∀ i : Nat, i < front → doc'.text[i]? = doc.text[i]?) (hstart : startsLine doc.text front = true)
    (hstart' : startsLine doc'.text front = true) (hle : front ≤ stop) (hle' : front ≤ stop') (hstop : IsBoundary doc.text stop)
    (hstop' : IsBoundary doc'.text stop') (hgood : m.Good (m.start doc 0 stop)) (hgood' : m.Good (m.start doc' 0 stop')) :
    (∀ i : Nat, i < front → (m.colour doc' 0 stop').styles[i]? = (m.colour doc 0 stop).styles[i]?)
      ∧ (storing → ∀ l : Nat, l < doc.lineOf front →
        (m.colour doc' 0 stop').lineStates[l]? = (m.colour doc 0 stop).lineStates[l]?) := by
  have hbegins := View.Begins.ofFront hdoc hdoc' hencoding hoptions hpos htext hstart hstart' hle hle' hstop hstop'
  have hgoes : m.goesOn doc 0 doc' 0 :=
    h.goesOn_of_front (fun i hi => absurd hi (Nat.not_lt_zero i)) (hdoc'.lineOf_zero.trans hdoc.lineOf_zero.symm)
      (fun i hi => absurd hi (Nat.not_lt_zero i)) (fun _ l hl => absurd (hdoc.lineOf_zero ▸ hl) (Nat.not_lt_zero l))
  obtain ⟨hstyles, hstates⟩ := h.agree rfl hbegins hgoes hgood hgood'
  exact ⟨fun i hi => hstyles i (Nat.zero_le i) hi, fun hstoring l hl => hstates hstoring l (Nat.zero_le l) hl⟩

/--
What a pass over a part of the text leaves there, a pass over all of it leaves there too.
-/
theorem Local.agree_upTo (h : m.Local storing) (hdoc : doc.WellFormed) (hpos : 0 < stop) (hstop : IsBoundary doc.text stop)
    (hgood : m.Good (m.start doc 0 doc.size)) :
    (∀ i : Nat, i < stop → (m.colour doc 0 doc.size).styles[i]? = (m.colour doc 0 stop).styles[i]?)
      ∧ (storing → ∀ l : Nat, l < doc.linesTo stop →
        (m.colour doc 0 doc.size).lineStates[l]? = (m.colour doc 0 stop).lineStates[l]?) := by
  rcases hstop with hstart | rfl
  . have hle := le_size_of_startsLine hstart
    rw [hdoc.linesTo_of_startsLine hstart]
    have hgood₁ := h.good_part hdoc startsLine_zero hpos (.inl hstart) hle (.inr rfl) hgood
    exact h.agree_front hdoc hdoc rfl rfl hpos (fun _ _ => rfl) hstart hstart (Nat.le_refl stop) hle (.inl hstart) (.inr rfl)
      hgood₁ hgood
  . exact ⟨fun _ _ => rfl, fun _ _ _ => rfl⟩

/--
A pass from scratch over all of the text can be taken.
-/
def Passable (m : Colouring σ) (doc : Document) : Prop :=
  0 < doc.size → m.Good (m.start doc.anew 0 doc.size)

section Resume

variable (h : m.Local storing) (hvalid : (m.colour doc.anew 0 doc.size).AlikeUpTo storing doc.endStyled doc)
  (hlt : doc.endStyled < stop) (hstop : IsBoundary doc.text stop) (hgood : m.Good (m.start doc.anew 0 doc.size))
include h hvalid hlt hstop hgood

/--
A pass from scratch is one up to the end of the valid styles, and another one that begins there, in a document
that shows the same in front of it.
-/
theorem exists_part (hstart : startsLine doc.text doc.endStyled = true) :
    ∃ part : Document, doc.anew.SameSource part ∧ m.colour doc.anew 0 stop = m.colour part doc.endStyled stop
      ∧ m.Good (m.start part doc.endStyled stop) ∧ m.goesOn part doc.endStyled doc doc.endStyled := by
  have hfresh := doc.wellFormed_anew
  have hle : stop ≤ doc.size := hstop.le_size
  have hgood₁ := h.good_part hfresh startsLine_zero (Nat.lt_of_le_of_lt (Nat.zero_le _) hlt) hstop hle (.inr rfl) hgood
  have hline := hvalid.wellFormed'.lineOf_anew doc.endStyled
  rcases Nat.eq_zero_or_pos doc.endStyled with hzero | hpos
  . rw [hzero] at hline ⊢
    refine ⟨doc.anew, .refl _, rfl, hgood₁, h.goesOn_of_front (fun _ _ => rfl) hline.symm ?_ ?_⟩
    . intro i hi
      exact absurd hi (Nat.not_lt_zero i)
    . intro _ l hl
      exact absurd (hfresh.pos_of_lt_lineOf hl) (Nat.lt_irrefl 0)
  . obtain ⟨hsplit, hgood₂⟩ := h.colour_split hfresh startsLine_zero hpos hstart hlt hstop hgood₁
    have hgood₀ := h.good_part hfresh startsLine_zero hpos (.inl hstart) (Nat.le_of_lt hlt) hstop hgood₁
    have hsame := h.sameSource_colour hfresh startsLine_zero hpos (.inl hstart) hgood₀
    obtain ⟨hstyles, hstates⟩ := h.agree_upTo hfresh hpos (.inl hstart) hgood
    rw [hfresh.linesTo_of_startsLine hstart] at hstates
    refine ⟨_, hsame, hsplit, hgood₂, h.goesOn_of_front ?_ ?_ ?_ ?_⟩
    . intro i _
      rw [hsame.text]
      rfl
    . rw [hsame.lineOf, hline]
    . intro i hi
      exact (hvalid.styles i hi).trans (hstyles i hi)
    . intro hstoring l hl
      rw [hsame.lineOf] at hl
      refine (hvalid.lineStates hstoring l ?_).trans (hstates hstoring l hl)
      rw [← hvalid.linesTo_eq (Nat.le_refl _), hvalid.wellFormed'.linesTo_of_startsLine hstart]
      rwa [← hline]

/--
A pass that goes on where the valid styles end leaves what a pass from scratch does.
-/
theorem colour_goOn :
    doc.SameSource (m.colour doc doc.endStyled stop)
      ∧ (∀ i : Nat, i < stop → (m.colour doc doc.endStyled stop).styles[i]? = (m.colour doc.anew 0 doc.size).styles[i]?)
      ∧ (storing → ∀ l : Nat, l < doc.linesTo stop →
        (m.colour doc doc.endStyled stop).lineStates[l]? = (m.colour doc.anew 0 doc.size).lineStates[l]?)
      ∧ ∀ l : Nat, l < doc.lineOf doc.endStyled → (m.colour doc doc.endStyled stop).levels[l]? = doc.levels[l]? := by
  have hle : stop ≤ doc.size := hstop.le_size
  have hfresh := doc.wellFormed_anew
  have hwell := hvalid.wellFormed'
  have hpositive : 0 < doc.size := by omega
  have hsource := h.sameSource_colour hfresh startsLine_zero hpositive (.inr rfl) hgood
  have hstart : startsLine doc.text doc.endStyled = true := by
    have hboundary := hvalid.isBoundary
    rw [hsource.text] at hboundary
    exact hboundary.startsLine (show doc.endStyled < doc.size by omega)
  obtain ⟨hstyles, hstates⟩ := h.agree_upTo hfresh (Nat.lt_of_le_of_lt (Nat.zero_le _) hlt) hstop hgood
  obtain ⟨part, hsame, hsplit, hgood₁, hgoes⟩ := exists_part h hvalid hlt hstop hgood hstart
  rw [hsplit] at hstyles hstates
  have htext : doc.text = part.text := hsame.text.symm
  have hpart := hsame.wellFormed hfresh
  have hline : ∀ pos, part.lineOf pos = doc.lineOf pos := by
    intro pos
    rw [hsame.lineOf, hwell.lineOf_anew]
  have hlines : doc.linesTo stop = doc.anew.linesTo stop := by
    rw [Document.linesTo, Document.linesTo, hwell.lineOf_anew]
  have hbegins : (View.ofRange part doc.endStyled stop stop).Begins part doc stop stop :=
    .ofText hpart hwell htext hsame.encoding.symm hsame.options.symm (by rwa [← htext]) hlt (by rwa [← htext]) (Nat.le_refl stop)
      (by rwa [← htext])
  have hclosed : (View.ofRange part doc.endStyled stop stop).Closed m.loose (Pen.Covering doc.endStyled) := View.closed_covering rfl
  have halike := h.alike_start hclosed hbegins hgoes hgood₁ (Pen.covering_start part doc doc.endStyled)
  have hgood₂ : m.Good (m.start doc doc.endStyled stop) := h.good_alike hclosed rfl halike hgood₁
  obtain ⟨hbehind, hbehindStates⟩ := h.agree rfl hbegins hgoes hgood₁ hgood₂
  obtain ⟨pen, hframed, heq⟩ := h.framed_colour hwell hstart hlt hstop hgood₂
  refine ⟨by rw [heq]; exact hframed.sameSource, ?_, ?_, fun l hl => by rw [heq, hframed.levels l (.inl hl)]⟩
  . intro i hi
    rcases Nat.lt_or_ge i doc.endStyled with hfront | hge
    . rw [heq, hframed.styles i (.inl hfront), hvalid.styles i hfront]
    . exact (hbehind i hge hi).trans (hstyles i hi).symm
  . intro hstoring l hl
    rcases Nat.lt_or_ge l (doc.lineOf doc.endStyled) with hfront | hge
    . rw [heq, hframed.lineStates l (.inl hfront), hvalid.lineStates hstoring l]
      rwa [← hvalid.linesTo_eq (Nat.le_refl _), hwell.linesTo_of_startsLine hstart]
    . have hlast : l < (View.ofRange part doc.endStyled stop stop).last := by
        rw [hbegins.shows.last]
        split
        . have hcount := hpart.linesTo_le stop
          rw [Document.linesTo, hline] at hcount
          exact Nat.lt_of_lt_of_le hl hcount
        . next hopen =>
          have hinner : startsLine doc.text stop = true := by
            refine hstop.resolve_right fun hend => hopen ?_
            rw [hend, htext]
            exact beq_self_eq_true _
          rw [hwell.linesTo_of_startsLine hinner] at hl
          show l < part.lineOf stop
          rwa [hline]
      rw [hlines] at hl
      refine (hbehindStates hstoring l ?_ hlast).trans (hstates hstoring l hl).symm
      show part.lineOf doc.endStyled ≤ l
      rwa [hline]

end Resume

/--
A pass that depends on nothing but the text in front of it goes on behind valid styles.
-/
theorem Local.resumes (h : m.Local storing) (hdrives : m.Drives session) : session.Resumes storing m.Passable := by
  have hcoloured : ∀ {doc : Document}, 0 < doc.size → session.coloured doc = m.colour doc.anew 0 doc.size :=
    fun hpos => hdrives.colour_eq (Document.wellFormed_anew _) hpos (.inr rfl)
  constructor
  case sameSource =>
    intro doc hgood
    rcases Nat.eq_zero_or_pos doc.size with hzero | hpos
    . rw [Session.coloured, Session.colour_of_le (Nat.le_trans (Nat.min_le_left _ _) (Nat.le_of_eq hzero))]
      exact .refl _
    . rw [hcoloured hpos]
      exact h.sameSource_colour doc.wellFormed_anew startsLine_zero hpos (.inr rfl) (hgood hpos)
  case front =>
    intro doc doc' limit hgood hgood' hencoding hoptions hpos htext hstart hstart'
    have hsize := le_size_of_startsLine hstart
    have hsize' := le_size_of_startsLine hstart'
    have hpositive : 0 < doc.size := Nat.lt_of_lt_of_le hpos hsize
    have hpositive' : 0 < doc'.size := Nat.lt_of_lt_of_le hpos hsize'
    rw [hcoloured hpositive, hcoloured hpositive']
    exact h.agree_front doc.wellFormed_anew doc'.wellFormed_anew hencoding hoptions hpos htext hstart hstart' hsize hsize' (.inr rfl)
      (.inr rfl) (hgood hpositive) (hgood' hpositive')
  case goOn =>
    intro doc stop hgood hvalid hlt hstop
    have hle : stop ≤ doc.size := hstop.le_size
    have hpos : 0 < doc.size := by omega
    have hboundary := hvalid.isBoundary
    rw [Session.Valid, hcoloured hpos] at hvalid
    have hsource := h.sameSource_colour doc.wellFormed_anew startsLine_zero hpos (.inr rfl) (hgood hpos)
    have hstart : startsLine doc.text doc.endStyled = true := by
      have hboundary := hvalid.isBoundary
      rw [hsource.text] at hboundary
      exact hboundary.startsLine (show doc.endStyled < doc.size by omega)
    have hcolour : session.colour doc doc.endStyled stop = m.colour doc doc.endStyled stop := by
      rw [hdrives.colour_of_lt hvalid.wellFormed' (by omega), Nat.min_eq_left hle, lineCeil_of_isBoundary hstop,
        lineFloor_of_startsLine hstart]
    rw [hcolour, hcoloured hpos]
    exact colour_goOn h hvalid hlt hstop (hgood hpos)

/--
Whatever has been asked of a session, all that it promises is so.
-/
theorem restyle_eq (h : m.Local storing) (hdrives : m.Drives session) (hfold : session.Relevels) {text : Array UInt8}
    (htext : 0x0D ∉ text) (encoding : Encoding) (options : Options) {requests : List Session.Request}
    (hreturn : ∀ request ∈ requests, request.hasNoReturn = true)
    (hgood : ∀ served, served <+: requests →
      m.Passable (.fresh (session.serve (.fresh text encoding options) served).text encoding options)) :
    let doc := session.serve (.fresh text encoding options) requests
    let whole := session.style (.fresh doc.text encoding options) 0 doc.size
    (session.ensureStyled doc doc.size).styles = whole.styles
      ∧ (doc.lineStart (doc.lineOf doc.endStyled) = doc.endStyled ∨ doc.endStyled = doc.size)
      ∧ ∀ i : Nat, i < doc.endStyled → doc.styles[i]? = whole.styles[i]? := by
  have hresumes := h.resumes hdrives
  have hpassable : ∀ {served : Document}, served.encoding = encoding → served.options = options →
      m.Passable (.fresh served.text encoding options) → m.Passable served := by
    rintro served rfl rfl hgood
    exact hgood
  obtain ⟨hvalid, hencoding, hoptions⟩ := hresumes.valid_serve hfold htext encoding options hreturn
    fun served hprefix hencoding hoptions => hpassable hencoding hoptions (hgood served hprefix)
  have hgood := hpassable hencoding hoptions (hgood requests (List.prefix_refl requests))
  generalize session.serve (.fresh text encoding options) requests = doc at *
  have hanew : doc.anew = .fresh doc.text encoding options := by rw [Document.anew, hencoding, hoptions]
  have hboundary := hresumes.isBoundary_endStyled hgood hvalid
  dsimp only
  rw [← hanew]
  refine ⟨hresumes.styles_ensureStyled hgood hvalid hfold, ?_, ?_⟩
  . refine hboundary.imp_left fun hstart => ?_
    rw [hvalid.wellFormed'.lineStart_lineOf, lineFloor_of_startsLine hstart]
  . intro i hi
    rw [Session.Resumes.styles_style hfold]
    exact hvalid.styles i hi

end Colouring

end Highlight
