import Highlight.Proofs.R.Resume

/-!
Colouring R in parts. No line state is written: what a line goes on with is seen from the style in front of it.
-/

namespace Highlight.R

open LineIndex

section LineStates

variable {keywords : Keywords}

theorem lineStates_leaveString (quote : Code) (c : Cursor) : (leaveString quote c).doc.lineStates = c.doc.lineStates := by
  unfold leaveString
  split
  . split
    . rw [Cursor.doc_forward]
    . rfl
  . split
    . apply Cursor.lineStates_forwardSetState
    . rfl

theorem lineStates_leave (c : Cursor) : (leave keywords c).doc.lineStates = c.doc.lineStates := by
  unfold leave
  split
  . apply Cursor.lineStates_setState
  . split
    . rfl
    . apply Cursor.lineStates_setState
  . split
    . rfl
    . exact Cursor.lineStates_setState (c.changeState _) _
  . split
    . apply Cursor.lineStates_setState
    . rfl
  . apply lineStates_leaveString
  . apply lineStates_leaveString
  . split
    . apply Cursor.lineStates_forwardSetState
    . split
      . exact Cursor.lineStates_forwardSetState (c.changeState _) _
      . rfl
  . rfl

theorem lineStates_enter (c : Cursor) : (enter c).doc.lineStates = c.doc.lineStates := by
  unfold enter
  split
  . split
    . apply Cursor.lineStates_setState
    . rfl
  . rfl

theorem lineStates_step (c : Cursor) : (step keywords c).doc.lineStates = c.doc.lineStates := by
  unfold step
  rw [Cursor.doc_forward, lineStates_enter, lineStates_leave]

theorem lineStates_start (span : Span) (doc : Document) : (start span doc).doc.lineStates = doc.lineStates := by
  rw [start_eq]
  rfl

theorem lineStates_colour (keywords : Keywords) (span : Span) (doc : Document) :
    (colour keywords span doc).lineStates = doc.lineStates := by
  unfold colour
  dsimp only
  rw [Cursor.lineStates_complete]
  have hrun := iterates_repeatWhile Cursor.more (step keywords) (start span doc).remaining (start span doc)
  apply hrun.invariant (fun c => c.doc.lineStates = doc.lineStates) ?_ (lineStates_start span doc)
  intro c _ hc
  rw [lineStates_step, hc]

theorem lineStates_session_colour {session : Session} (hsession : session.lexer = lexer) (doc : Document) (start stop : Nat) :
    (session.colour doc start stop).lineStates = doc.lineStates := by
  unfold Session.colour Session.run
  split
  . rw [hsession]
    dsimp only [lexer]
    apply lineStates_colour
  . rfl

end LineStates

/--
A pass from `c` on comes by `d` between two of its steps, or in the middle of one, where a special operator ends with
its line.
-/
def ComesBy (keywords : Keywords) (c d : Cursor) : Prop :=
  Iterates Cursor.more (step keywords) c d
    ∨ ∃ c', Iterates Cursor.more (step keywords) c c' ∧ c'.more = true ∧ endsSpecial c' = true ∧ d = leave keywords c'

section Behind

variable {keywords : Keywords} {c d : Cursor} {doc : Document}

theorem comesBy_of_iterates (h : Iterates Cursor.more (advance keywords) c d) : ComesBy keywords c d := by
  apply h.invariant (ComesBy keywords c) ?_ (.inl (.refl c))
  intro e hmore he
  rcases he with hrun | ⟨c', hrun, hmore', hspecial, rfl⟩
  . cases hends : endsSpecial e with
    | true =>
      rw [advance, if_pos hends]
      exact .inr ⟨e, hrun, hmore, hends, rfl⟩
    | false =>
      rw [advance, hends, if_neg Bool.false_ne_true]
      exact .inl (hrun.tail hmore)
  -- What is left of the step behind the end of the line.
  . rw [← step_of_endsSpecial keywords hspecial]
    exact .inl (hrun.tail hmore')

theorem exists_lineStart (keywords : Keywords) (hdoc : doc.WellFormed) {pos : Nat} (hpos : 0 < pos)
    (hstart : startsLine doc.text pos = true) :
    ∃ c, Iterates Cursor.more (advance keywords) (start (doc.spanOf 0 doc.size) doc) c ∧ c.pos = pos ∧ c.atLineStart = true
      ∧ Kept True 0 c ∧ (colouring keywords).Good c ∧ c.Settled ∧ c.pos ≤ c.doc.size := by
  have hle : pos ≤ doc.size := le_size_of_startsLine hstart
  have hgood := good_start keywords hdoc (Nat.lt_of_lt_of_le hpos hle)
  have hforward := forward_colouring keywords
  -- The pass is looked at beside itself, in the lines in front of `pos`.
  have hbegins : (View.ofFront doc doc pos doc.size doc.size).Begins doc doc doc.size doc.size :=
    .ofFront hdoc hdoc rfl rfl hpos (fun _ _ => rfl) hstart hstart hle hle (.inr rfl) (.inr rfl)
  have hclosed : (View.ofFront doc doc pos doc.size doc.size).Closed (colouring keywords).loose Pen.Equal := View.closed_equal rfl
  have halike := hforward.alike_start hclosed hbegins rfl hgood (fun _ => rfl)
  obtain ⟨c, _, hrun, _, halike, hreach⟩ := hforward.exists_reach hclosed halike hgood
  have h : Alike True (View.ofFront doc doc pos doc.size doc.size) Pen.Equal c _ := halike
  have hsize : c.pos ≤ c.doc.size := hreach ▸ h.cursor.shows.limit_le
  exact ⟨c, hrun, hreach, h.cursor.atLineStart_of_reach hreach, h.kept, hforward.good_of_iterates hrun hgood, h.cursor.settled, hsize⟩

/--
A pass over all of a text comes by each line start with what the style that it leaves in front of the line says.
-/
theorem comesBy_carried (keywords : Keywords) (hdoc : doc.WellFormed) {pos : Nat} (hpos : 0 < pos)
    (hstart : startsLine doc.text pos = true) :
    ∃ c, ComesBy keywords (start (doc.spanOf 0 doc.size) doc) c ∧ c.pos = pos
      ∧ c.state = carried (((colouring keywords).colour doc 0 doc.size).styleBefore pos) := by
  have hforward := forward_colouring keywords
  have hsize : 0 < doc.size := Nat.lt_of_lt_of_le hpos (le_size_of_startsLine hstart)
  have hgood := good_start keywords hdoc hsize
  obtain ⟨c, hrun, hat, hline, hkept, hgood', hsettled, hle⟩ := exists_lineStart keywords hdoc hpos hstart
  obtain ⟨d, hrest, hend⟩ := hforward.ends hgood'
  obtain ⟨hstyles, _⟩ := hforward.finish_behind hgood' hline (hkept.loose trivial hline) ⟨hrest, hend⟩
  have hwhole := hforward.colour_eq hdoc startsLine_zero hsize (.inr rfl) hgood ⟨hrun.trans hrest, hend⟩
  refine ⟨c, comesBy_of_iterates hrun, hat, ?_⟩
  rw [hwhole, Document.styleBefore_congr fun i hi => hstyles i (hat.symm ▸ hi), ← hat]
  exact hkept.state_eq hsettled hline (by omega) hle

end Behind

/--
Colouring a text of R in parts, whichever its cuts are, leaves the styles that colouring it at once does. There is no
state of a line, and none is needed: the style in front of a line says what a pass goes on with there.
-/
theorem colourInParts_eq_colour_of_styles (session : Session) (hsession : session.lexer = lexer) (text : Array UInt8)
    (encoding : Encoding) (options : Options) (cuts : List Nat) (hcuts : cuts.Pairwise (· ≤ ·)) :
    let doc := Document.fresh text encoding options
    let whole := session.colour doc 0 text.size
    session.colourInParts doc cuts = whole ∧ whole.lineStates = doc.lineStates
      ∧ ∀ pos, 0 < pos → startsLine text pos = true →
        ∃ c, ComesBy session.keywords (start (doc.spanOf 0 text.size) doc) c ∧ c.pos = pos
          ∧ c.state = carried (whole.styleBefore pos) := by
  intro doc whole
  have hdoc := Document.wellFormed_fresh text encoding options
  have hdrives : (colouring session.keywords).Drives session := drives_colouring hsession
  refine ⟨?_, lineStates_session_colour hsession doc 0 text.size, ?_⟩
  . exact Colouring.colourInParts_eq (lawful_colouring session.keywords) hdrives hdoc
      (fun hsize => good_start session.keywords hdoc hsize) hcuts
  . intro pos hpos hstart
    have hle := le_size_of_startsLine hstart
    have hwhole : whole = _ := hdrives.colour_eq hdoc (show 0 < text.size by omega) (.inr rfl)
    rw [hwhole]
    exact comesBy_carried session.keywords hdoc hpos hstart

/--
A special operator that ends with its line, and a comment behind which a lead byte takes in the end of the line, with cuts
in both.
-/
theorem colourInParts_eq_colour_of_styles_lead_byte :
    let session := Session.ofLexer lexer
    let doc := Document.fresh #[0x25, 0x61, 0x0A, 0x23, 0x81, 0x0A, 0x61, 0x0A] (.doubleByte .shiftJis) .empty
    let whole := session.colour doc 0 doc.size
    [1, 4, 6].Pairwise (· ≤ ·) ∧ session.colourInParts doc [1, 4, 6] = whole
      ∧ whole.styleBefore 3 = Style.specialUnclosed
      ∧ ∃ c, ComesBy session.keywords (start (doc.spanOf 0 doc.size) doc) c ∧ c.pos = 3 ∧ c.state = Style.default := by
  intro session doc whole
  have hcuts : [1, 4, 6].Pairwise (· ≤ ·) := by decide
  have hstyle : whole.styleBefore 3 = Style.specialUnclosed := by decide +kernel
  obtain ⟨hparts, _, hlines⟩ := colourInParts_eq_colour_of_styles session rfl doc.text (.doubleByte .shiftJis) .empty [1, 4, 6] hcuts
  obtain ⟨c, hcomes, hpos, hstate⟩ := hlines 3 (by decide) (by decide +kernel)
  refine ⟨hcuts, hparts, hstyle, c, hcomes, hpos, ?_⟩
  exact hstate.trans (congrArg carried hstyle)

end Highlight.R
