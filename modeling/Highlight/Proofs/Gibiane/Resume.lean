import Highlight.Gibiane
import Highlight.Proofs.Cursor.Resume
import Highlight.Proofs.Gibiane.Step
import Highlight.Proofs.Locality
import Highlight.Proofs.Session.Parts

/-!
Gibiane can be interrupted at every line start. What a pass does there depends on the style in front of the line,
and on whether there is a line in front of it.
-/

namespace Highlight.Gibiane

open LineIndex

variable {v : View} {rel : Style → Pen → Pen → Prop} {keywords : Keywords} {s s' : Scan} {doc doc' : Document}

/--
The character in front of a line start ends a line.
-/
theorem isLineEnd_lead {pos : Nat} (hstart : startsLine doc.text pos = true) (hpos : 0 < pos) : (doc.lead pos).isLineEnd = true := by
  obtain ⟨b, hb, hbreak⟩ := ascii_of_endsLine (endsLine_of_startsLine hstart hpos)
  rw [Document.lead, if_pos hpos, Document.byteAt, hb]
  show (b.toNat == 0x0D || b.toNat == 0x0A) = true
  rw [Bool.or_eq_true, beq_iff_eq, beq_iff_eq]
  exact hbreak.symm

theorem isDigit_lead {pos : Nat} (hstart : startsLine doc.text pos = true) : (doc.lead pos).isDigit = false := by
  rcases Nat.eq_zero_or_pos pos with rfl | hpos
  . rfl
  . have hend := isLineEnd_lead hstart hpos
    rw [Code.isLineEnd, Bool.or_eq_true, beq_iff_eq, beq_iff_eq] at hend
    rcases hend with heq | heq <;> rw [heq] <;> rfl

section Start

variable {start stop : Nat} (hdoc : doc.WellFormed) (hstart : startsLine doc.text start = true) (hlt : start < stop)
  (hstop : IsBoundary doc.text stop)
include hdoc hstart hlt hstop

theorem prev_ofSpan : (Scan.ofSpan (doc.spanOf start stop) doc).cursor.prev = doc.lead start :=
  Cursor.prev_start hdoc hstart hlt hstop

/--
No letter has been read where a pass starts.
-/
theorem kept_ofSpan (hloose : loose (doc.styleBefore start) = true) : (Scan.ofSpan (doc.spanOf start stop) doc).Kept start := by
  have hpos : (Scan.ofSpan (doc.spanOf start stop) doc).cursor.pos = start := Cursor.pos_start hdoc hstart hlt hstop
  have hpen : (Scan.ofSpan (doc.spanOf start stop) doc).cursor.pen = ⟨doc, start⟩ := Cursor.pen_start hdoc hstart hlt hstop
  have hprev := prev_ofSpan hdoc hstart hlt hstop
  have hstate : (Scan.ofSpan (doc.spanOf start stop) doc).cursor.state = doc.styleBefore start :=
    Cursor.state_start hdoc hstart hlt hstop
  refine
    { first_le := Nat.le_refl _
      begun := .inl hpos
      loose := ?_
      ended := ?_
      carried := ?_
      prev := ?_ }
  . intro _
    rw [hstate]
    exact hloose
  . intro _ _ _ hbegun
    rw [hpen, hpos] at hbegun
    exact absurd hbegun (Nat.lt_irrefl start)
  . intro _ _ _ hbegun
    rw [hpen, hpos] at hbegun
    exact absurd hbegun (Nat.lt_irrefl start)
  . intro _ _
    rw [hprev, hpos, Cursor.doc, hpen]

end Start

/--
Passes over the same lines start alike if what is in front of them is the same.
-/
theorem alike_ofSpan {stop stop' : Nat} (h : v.Begins doc doc' stop stop')
    (hrel : ∀ style, rel style ⟨doc, v.start⟩ ⟨doc', v.start + v.shift⟩)
    (hstyle : doc'.styleBefore (v.start + v.shift) = doc.styleBefore v.start)
    (hlead : doc'.lead (v.start + v.shift) = doc.lead v.start) (hloose : loose (doc.styleBefore v.start) = true)
    (hsingle : ∀ page, v.encoding ≠ .doubleByte page) :
    Scan.Alike v rel (.ofSpan (doc.spanOf v.start stop) doc) (.ofSpan (doc'.spanOf (v.start + v.shift) stop') doc') := by
  have hcursor := h.alike_start hstyle (hrel _)
  have hpen := Cursor.pen_start h.shows.wellFormed h.startsLine h.lt_stop h.boundary
  have hpen' := Cursor.pen_start h.shows.wellFormed' h.startsLine' h.lt_stop' h.boundary'
  have hprev := prev_ofSpan h.shows.wellFormed h.startsLine h.lt_stop h.boundary
  have hprev' := prev_ofSpan h.shows.wellFormed' h.startsLine' h.lt_stop' h.boundary'
  have hstate := Cursor.state_start h.shows.wellFormed h.startsLine h.lt_stop h.boundary
  have hpens : ∀ style, rel style (Cursor.start doc (doc.spanOf v.start stop)).pen
      (Cursor.start doc' (doc'.spanOf (v.start + v.shift) stop')).pen := by
    rw [hpen, hpen']
    exact hrel
  exact
    { cursor := hcursor
      prev := by rw [hprev, hprev', hlead]
      behindLineEnd := by
        show (_ || _ == _) = (_ || _ == _)
        rw [Scan.ofSpan, Scan.ofSpan, beq_self_eq_true, beq_self_eq_true, Bool.or_true, Bool.or_true]
      token := by
        show isToken (Cursor.start doc (doc.spanOf v.start stop)).state = true
        rw [hstate, isToken, hloose]
        rfl
      number := .inl rfl
      word := fun _ => .inl hpens
      string := fun _ => .inl hpens
      single := hsingle
      kept := kept_ofSpan h.shows.wellFormed h.startsLine h.lt_stop h.boundary hloose
      kept' := kept_ofSpan h.shows.wellFormed' h.startsLine' h.lt_stop' h.boundary' (by rw [hstyle]; exact hloose) }

/--
At a line start, a pass that begins there goes on with the same token.
-/
theorem alike_resume {base : Document} (h : Scan.Alike v (Pen.Same v base) s s') (hshift : v.shift = 0)
    (hwhole : v.whole = false) (hlimit : v.start < v.limit) (hpos : s.cursor.pos = v.limit) {stop : Nat}
    (hlt : v.limit < stop) (hbound : IsBoundary base.text stop) (hstop : s.cursor.stop = base.cursorStop stop) :
    Scan.Alike (.ofRange s'.cursor.complete v.limit stop stop) (Pen.Late loose v.limit s.cursor.state) s
      (.ofSpan (s'.cursor.complete.spanOf v.limit stop) s'.cursor.complete) := by
  have hrest := h.cursor.interrupted hshift hwhole hpos hlt hbound hstop
  have hsame := hrest.sameSource
  have hline := hrest.startsLine
  have hstart := hrest.atLineStart
  have hsize := hrest.pos_le_size
  have hloose := h.kept.loose hstart
  have hbegun := h.kept.begun.resolve_left (by omega)
  have hcursor := hrest.resume loose hbegun hloose
  have hwell := hrest.wellFormed_complete
  have hline' := hrest.startsLine_complete
  have hbound' := hrest.boundary_complete
  have hprev' := prev_ofSpan hwell hline' hlt hbound'
  have hlead : s'.cursor.complete.lead v.limit = s.cursor.doc.lead v.limit := hsame.lead v.limit
  have hprev : s.cursor.prev = s.cursor.doc.lead v.limit := by
    rw [h.kept.prev hstart hsize, hpos]
  have hstate : s'.cursor.complete.styleBefore v.limit = s.cursor.state := hrest.styleBefore_complete hbegun
  have hkept' := kept_ofSpan hwell hline' hlt hbound' (by rw [hstate]; exact hloose)
  have hstart' := hrest.atLineStart_start
  have hsize' : (Cursor.start s'.cursor.complete (s'.cursor.complete.spanOf v.limit stop)).pos
      ≤ (Cursor.start s'.cursor.complete (s'.cursor.complete.spanOf v.limit stop)).doc.size := by
    rw [Cursor.doc, Cursor.pen_start hwell hline' hlt hbound', hrest.pos_start, hsame.size, ← hpos]
    exact hsize
  exact
    { cursor := hcursor
      prev := by rw [hprev', hlead, hprev]
      behindLineEnd := by
        have hend : s.cursor.prev.isLineEnd = true := by
          rw [hprev]
          exact isLineEnd_lead hline (by omega)
        have hend' : (Scan.ofSpan (s'.cursor.complete.spanOf v.limit stop) s'.cursor.complete).cursor.prev.isLineEnd = true := by
          rw [hprev', hlead, ← hprev]
          exact hend
        rw [Scan.behindLineEnd, Scan.behindLineEnd, hend, hend', Bool.true_or, Bool.true_or]
      token := h.token
      number := by
        right
        left
        rw [hprev]
        exact isDigit_lead hline
      word := fun heq =>
        .inr ⟨h.kept.ended hstart hsize heq, hkept'.ended hstart' hsize' (hcursor.state.trans heq)⟩
      string := fun heq =>
        .inr ⟨h.kept.carried hstart hsize heq, hkept'.carried hstart' hsize' (hcursor.state.trans heq)⟩
      single := by
        intro page hpage
        exact h.single page (h.cursor.shows.encoding.symm.trans (hsame.encoding.symm.trans hpage))
      kept := { h.kept with begun := .inl hpos }
      kept' := hkept' }

/--
The colouring of Gibiane. It depends neither on options nor on line states.
-/
def colouring (keywords : Keywords) : Colouring Scan where
  colour doc start stop := colour keywords (doc.spanOf start stop) doc
  start doc start stop := .ofSpan (doc.spanOf start stop) doc
  cursor := Scan.cursor
  step := Scan.step keywords
  loose := loose
  goesOn doc pos doc' pos' := doc'.styleBefore pos' = doc.styleBefore pos ∧ doc'.lead pos' = doc.lead pos
  alike := Scan.Alike
  Storable _ := True
  rank s := s.cursor.remaining

theorem lawfulSteps_colouring (hkeywords : Bounded keywords) : (colouring keywords).LawfulSteps where
  cursor_alike := fun h => h.cursor
  alike_second := fun h => h.second
  storable_alike := fun _ _ => trivial
  alike_step := fun hrel _ hin h => (h.step hrel hkeywords hin).1
  rank_step := by
    intro v s hshift _ hin h
    have hshift : (v.behind s.cursor.doc s.cursor.pos).shift = 0 := hshift
    obtain ⟨hstep, hlt⟩ := (h.behind hin).step (View.closed_equal hshift) hkeywords hin
    have hstop : (s.step keywords).cursor.stop = s.cursor.stop := hstep.cursor.stop.trans h.cursor.stop.symm
    have hmore := h.cursor.more hin
    simp only [Cursor.more, decide_eq_true_eq] at hmore
    exact Cursor.remaining_lt hmore hstop hlt

/--
Gibiane can be interrupted at every line start.
-/
theorem lawful_colouring (hkeywords : Bounded keywords) : (colouring keywords).Lawful where
  toLawfulSteps := lawfulSteps_colouring hkeywords
  colour_eq := by
    intro doc start stop t _ _ _ _ hgood hends
    have hloop := (lawfulSteps_colouring hkeywords).ends_repeatWhile hgood (fun _ => Nat.le_refl _)
    rw [hends.1.end_unique hends.2 hloop.1 hloop.2]
    rfl
  goesOn_of_agree := fun _ hsame hstyles _ _ => ⟨Document.styleBefore_congr hstyles, hsame.lead _⟩
  alike_start := by
    intro v rel doc doc' stop stop' _ hbegins hgoes hgood hrel
    obtain ⟨v₁, _, _, h⟩ := hgood.alike
    have hencoding := h.cursor.shows.encoding
    have hpen := Cursor.pen_start hbegins.shows.wellFormed hbegins.startsLine hbegins.lt_stop hbegins.boundary
    have hstate := Cursor.state_start hbegins.shows.wellFormed hbegins.startsLine hbegins.lt_stop hbegins.boundary
    have hloose := h.kept.loose (Cursor.atLineStart_start hbegins.shows.wellFormed hbegins.startsLine hbegins.lt_stop hbegins.boundary)
    refine alike_ofSpan hbegins hrel hgoes.1 hgoes.2 ?_ ?_
    . rw [← hstate]
      exact hloose
    . intro page hpage
      refine h.single page (hencoding.symm.trans ?_)
      show (Cursor.start doc (doc.spanOf v.start stop)).doc.encoding = _
      rw [Cursor.doc, hpen]
      exact hbegins.shows.encoding.trans hpage
  resume := by
    intro v base s t stop _ hshift hwhole hstop hlimit h hmore hlt hbound hat
    have hpos := h.cursor.pos_eq_reach (by omega) hmore
    rw [View.reach_of_open hwhole] at hpos
    exact ⟨_, alike_resume h hshift hwhole hlimit hpos hlt hbound hat⟩

/--
What Gibiane leaves in front of a line depends on the text in front of it only.
-/
theorem local_colouring (hkeywords : Bounded keywords) : (colouring keywords).Local False where
  toLawful := lawful_colouring hkeywords
  loose_of_reach := fun h hpos => h.kept.loose (h.cursor.atLineStart_of_reach hpos)
  alike_behind := fun h hin hstart hrel => h.behindLine hin hstart hrel
  lineStates_of_alike := False.elim
  goesOn_of_front := by
    intro doc doc' pos htext _ hstyles _
    refine ⟨Document.styleBefore_congr hstyles, ?_⟩
    unfold Document.lead
    split
    . rw [Document.byteAt, Document.byteAt, htext (pos - 1) (by omega)]
    . rfl

theorem good_start (keywords : Keywords) (hdoc : doc.WellFormed) (hpos : 0 < doc.size)
    (hsingle : ∀ page, doc.encoding ≠ .doubleByte page) :
    (colouring keywords).Good ((colouring keywords).start doc 0 doc.size) := by
  have hbegins := View.Begins.ofRange hdoc (.refl doc) startsLine_zero hpos (.inr rfl) (Nat.le_refl doc.size) (.inr rfl)
  have hpens : ∀ style, Pen.Equal style ⟨doc, 0⟩ ⟨doc, 0⟩ := fun _ => rfl
  have hloose : loose (doc.styleBefore 0) = true := rfl
  have halike : Scan.Alike (.ofRange doc 0 doc.size doc.size) Pen.Equal (.ofSpan (doc.spanOf 0 doc.size) doc)
      (.ofSpan (doc.spanOf 0 doc.size) doc) :=
    alike_ofSpan hbegins hpens rfl rfl hloose hsingle
  exact ⟨⟨_, rfl, rfl, halike⟩, fun _ _ => trivial⟩

theorem drives_colouring {session : Session} (h : session.lexer = lexer) : (colouring session.keywords).Drives session := by
  intro doc span start stop hdoc hstart hlt hstop hspan
  rw [h]
  dsimp only [lexer, colouring]
  rw [← hdoc.wholeLines_spanOf hstart hlt hstop] at hspan
  unfold colour Scan.ofSpan
  rw [Cursor.start_congr hspan]

/--
Colouring a text of Gibiane in parts, whichever its cuts are, leaves what colouring it at once does, if no keyword fills
what is looked up of a token.
-/
theorem colourInParts_eq_colour_of_shortKeywords (session : Session) (hsession : session.lexer = lexer)
    (htexts : ∀ list ∈ session.keywords, ∃ text, list = .ofText text)
    (hlength : ∀ list ∈ session.keywords, ∀ word ∈ list.words, (Utf8.encode word).length < 98) (text : Array UInt8)
    (encoding : Encoding) (hencoding : encoding = .singleByte ∨ encoding = .utf8) (options : Options) (cuts : List Nat)
    (hcuts : cuts.Pairwise (· ≤ ·)) :
    session.colourInParts (.fresh text encoding options) cuts = session.colour (.fresh text encoding options) 0 text.size := by
  have hdoc := Document.wellFormed_fresh text encoding options
  have hkeywords := bounded_of_ofText htexts hlength
  apply Colouring.colourInParts_eq (lawful_colouring hkeywords) (drives_colouring hsession) hdoc ?_ hcuts
  intro hpos
  apply good_start session.keywords hdoc hpos
  intro page hpage
  rcases hencoding with h | h
  . exact Encoding.noConfusion (h.symm.trans hpage)
  . exact Encoding.noConfusion (h.symm.trans hpage)

/--
Cuts in a number, in a comment, in a quoted keyword and in a string that goes over a line end.
-/
theorem colourInParts_eq_colour_of_shortKeywords_quoted :
    let session := ((Session.ofLexer lexer).setKeywords 0 "si").1
    let doc := Document.fresh "12\n*a\n'si' 'b\nc'\n34".toUTF8.data .utf8 .empty
    session.colourInParts doc [1, 4, 8, 14, 18] = session.colour doc 0 doc.size := by
  intro session doc
  have hlists : ∀ list ∈ session.keywords, list = .ofText "si" ∨ list = .ofText "" := by decide +kernel
  apply colourInParts_eq_colour_of_shortKeywords session rfl ?_ (by decide +kernel) doc.text .utf8 (.inr rfl) .empty _ (by decide)
  intro list hlist
  rcases hlists list hlist with heq | heq
  . exact ⟨_, heq⟩
  . exact ⟨_, heq⟩

end Highlight.Gibiane
