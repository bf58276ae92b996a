import Highlight.Proofs.Tcl.Unseen

/-!
The lines that Tcl leaves white: they show nothing, or only what a pass does not look at.
-/

namespace Highlight.Tcl

open LineIndex

variable {doc marks : Document} {line i : Nat} {above : Memory} {s : Scan} {keywords : Keywords}

/--
What the line above has kept.
-/
def memoryAbove (doc : Document) (line : Nat) : Memory :=
  if 0 < line then .unpack (doc.lineState (line - 1)) else ⟨.nothing, false, false⟩

namespace Scan

/--
A line end stores the level and the state of its line, and nothing else.
-/
theorem marks_closeLine (h : s.cursor.OnLine doc marks line) (hend : s.cursor.atLineEnd = true) (hline : line < doc.lineCount) :
    s.closeLine.cursor.OnText doc ∧ s.closeLine.cursor.line = line + 1 ∧ s.closeLine.cursor.atLineStart = true
      ∧ s.closeLine.cursor.state = Style.default
      ∧ s.closeLine.cursor.doc.lineState line = s.memory.pack
      ∧ s.closeLine.cursor.doc.level line
        = packLevel (Int32.ofInt s.lineDepth) (Int32.ofInt s.depth) s.inCommentBlock s.visible
      ∧ ∀ l, l ≠ line → s.closeLine.cursor.doc.lineState l = marks.lineState l ∧ s.closeLine.cursor.doc.level l = marks.level l := by
  have hmore : s.storeLine.more = true := h.more
  have hstore : s.storeLine.OnText doc := ((h.onText.setLevel _ _).setLineState _ _).setState _
  have hcount : s.cursor.line < s.cursor.doc.lineCount := Nat.lt_of_lt_of_eq (h.line ▸ hline) h.onText.source.lineCount.symm
  have hdoc : s.closeLine.cursor.doc = s.storeLine.doc := Cursor.doc_forward _
  have hlineState := lineState_storeLine h.onText.settled hcount
  have hlevel := level_storeLine h.onText.settled hcount
  rw [h.line] at hlineState hlevel
  refine ⟨hstore.forward h.pos_le, ?_, ?_, Cursor.state_forward hmore, ?_, ?_, fun l hne => ⟨?_, ?_⟩⟩
  . show s.storeLine.forward.line = line + 1
    rw [Cursor.line_forward hmore, show s.storeLine.atLineEnd = true from hend, if_pos rfl]
    exact congrArg (· + 1) h.line
  . exact (Cursor.atLineStart_forward hmore).trans hend
  . rw [hdoc, hlineState, if_pos rfl]
  . rw [hdoc, hlevel, if_pos rfl]
  . rw [hdoc, hlineState, if_neg hne, Document.lineState, h.lineStates]
    rfl
  . rw [hdoc, hlevel, if_neg hne, Document.level, h.levels]
    rfl

end Scan

/--
A line is left white only if its bytes are spaces or have been overlooked.
-/
def WhiteOnlyIfBlank (doc marks : Document) (line : Nat) : Prop :=
  (marks.level line).isWhite = true → ∀ i, doc.lineStart line ≤ i → i < doc.lineStart (line + 1) →
    Code.isSpace (doc.byteAt i 0x20).toNat = true
      ∨ Overlooked doc (memoryAbove marks line) (.unpack (marks.lineState line)) line i

/--
What is so with a scan of a pass over all of a text: the lines above are right, and it is known why nothing visible has been seen on
this one.
-/
structure Scan.Reports (doc : Document) (s : Scan) : Prop where
  onText : s.cursor.OnText doc
  lines : ∀ l, l < s.cursor.line → WhiteOnlyIfBlank doc s.cursor.doc l
  unseen : s.cursor.pos ≤ doc.size → s.visible = false → s.Unseen doc (memoryAbove s.cursor.doc s.cursor.line) s.cursor.line

theorem WhiteOnlyIfBlank.congr {marks' : Document} (h : WhiteOnlyIfBlank doc marks line)
    (hmarks : ∀ l, l ≤ line → marks'.lineState l = marks.lineState l ∧ marks'.level l = marks.level l) :
    WhiteOnlyIfBlank doc marks' line := by
  have habove : memoryAbove marks' line = memoryAbove marks line := by
    unfold memoryAbove
    rw [(hmarks (line - 1) (Nat.sub_le _ _)).1]
  unfold WhiteOnlyIfBlank
  rw [habove, (hmarks line (Nat.le_refl _)).1, (hmarks line (Nat.le_refl _)).2]
  exact h

namespace Scan.Reports

theorem advance_of_inner (h : s.Reports doc) (hpos : s.cursor.pos ≤ doc.size) (settings : Settings)
    (hend : (s.leave settings.keywords).cursor.atLineEnd = false) : (s.advance settings).Reports doc := by
  have honLine := h.onText.onLine hpos
  have hgoes := goes_step honLine (h.unseen hpos) settings hend
  unfold advance
  generalize s.step settings false = r at hgoes
  obtain ⟨t, flow⟩ := r
  -- Wherever the step comes to, it is on the same line, and nothing has been stored.
  have hreports : (after (t, flow)).cursor.OnLine doc s.cursor.doc s.cursor.line → (after (t, flow)).visible = t.visible →
      (after (t, flow)).Reports doc := by
    intro hline hvisible
    have hmarks : ∀ l, (after (t, flow)).cursor.doc.lineState l = s.cursor.doc.lineState l
        ∧ (after (t, flow)).cursor.doc.level l = s.cursor.doc.level l := by
      intro l
      constructor
      . rw [Document.lineState, hline.lineStates]
        rfl
      . rw [Document.level, hline.levels]
        rfl
    refine ⟨hline.onText, fun l hl => ?_, fun _ hunseen => ?_⟩
    . exact (h.lines l (hline.line ▸ hl)).congr fun l' _ => hmarks l'
    . have habove : memoryAbove (after (t, flow)).cursor.doc s.cursor.line = memoryAbove s.cursor.doc s.cursor.line := by
        unfold memoryAbove
        rw [(hmarks _).1]
      rw [hline.line, habove]
      exact hgoes.unseen (hvisible ▸ hunseen)
  cases flow with
  | forward => exact hreports (hgoes.cursor.forward (hgoes.inner rfl)) rfl
  | again => exact hreports hgoes.cursor rfl
  | stop => exact hreports hgoes.cursor rfl

theorem advance_of_atLineEnd (h : s.Reports doc) (hpos : s.cursor.pos ≤ doc.size) (settings : Settings)
    (hend : (s.leave settings.keywords).cursor.atLineEnd = true)
    (hown : Level.InField (0x400 + ((s.leave settings.keywords).foldComment settings.foldComments).lineDepth))
    (hnext : DepthFits ((s.leave settings.keywords).foldComment settings.foldComments).depth) :
    (s.advance settings).Reports doc := by
  have honLine := h.onText.onLine hpos
  have hline : s.cursor.line < doc.lineCount := by
    have hsettled := h.onText.settled
    rw [hsettled.line, h.onText.size_eq, if_neg (Nat.not_lt_of_le hpos), Nat.add_zero, ← h.onText.source.lineCount]
    exact hsettled.wellFormed.lineOf_lt _
  have hleave := onLine_leave honLine settings.keywords
  have hseen := visible_leave settings.keywords s
  have hbytes := fun hunseen i => (h.unseen hpos hunseen).bytes (i := i) honLine settings.keywords hend
  unfold advance
  rw [step_of_atLineEnd settings hend, after_endLine]
  obtain ⟨inCommentBlock, depth, lineDepth, hfold⟩ := (s.leave settings.keywords).foldComment_eq settings.foldComments
  rw [hfold] at hown hnext ⊢
  generalize s.leave settings.keywords = t at *
  clear hfold
  generalize hu : { t with inCommentBlock, depth, lineDepth : Scan } = u at *
  have hcursor : u.cursor = t.cursor := by rw [← hu]
  have hmemory : u.memory = t.memory := by rw [← hu]; rfl
  have hvisible : u.visible = s.visible := by rw [← hseen, ← hu]
  rw [← hcursor] at hleave hend
  obtain ⟨htext, hnextLine, hstart, hstate, hlineState, hlevel, hothers⟩ := marks_closeLine hleave hend hline
  have habove : memoryAbove u.closeLine.cursor.doc s.cursor.line = memoryAbove s.cursor.doc s.cursor.line := by
    unfold memoryAbove
    split
    . next hpos => rw [(hothers _ (Nat.ne_of_lt (Nat.sub_lt hpos Nat.one_pos))).1]
    . rfl
  refine ⟨htext, fun l hl => ?_, fun hin _ => ?_⟩
  . rw [hnextLine] at hl
    rcases Nat.eq_or_lt_of_le (Nat.le_of_lt_succ hl) with rfl | hbefore
    . intro hwhite i hle hlt
      rw [hlevel, isWhite_packLevel hown hnext.kept, Bool.and_eq_true, Bool.not_eq_true', hvisible] at hwhite
      rw [habove, hlineState, Memory.unpack_pack, hmemory]
      exact hbytes hwhite.1 i hle hlt
    . exact (h.lines l hbefore).congr fun l' hl' => hothers l' (by omega)
  . have hbehind : memoryAbove u.closeLine.cursor.doc (s.cursor.line + 1) = u.memory := by
      unfold memoryAbove
      rw [if_pos (Nat.succ_pos _), Nat.add_sub_cancel, hlineState, Memory.unpack_pack]
    have hfirst := (htext.onLine hin).pos_eq_lineStart hstart
    rw [hnextLine] at hfirst ⊢
    rw [hbehind]
    cases hbraces : u.inBraces with
    | true => exact .braces hbraces hbraces rfl fun i hle hlt => absurd hlt (by omega)
    | false => exact .begun hstart rfl ⟨hbraces, rfl, .inl hstate, fun i hle hlt => absurd hlt (by omega)⟩

theorem advance (h : s.Reports doc) {v : View} (hshift : v.shift = 0) (hself : Scan.Alike True True v Pen.Equal s s)
    (hin : s.cursor.pos < v.reach) (hpos : s.cursor.pos ≤ doc.size) (settings : Settings) (hown : Level.InField (0x400 + s.lineDepth))
    (hnext : Level.InField (0x400 + (s.advance settings).lineDepth)) : (s.advance settings).Reports doc := by
  cases hend : (s.leave settings.keywords).cursor.atLineEnd with
  | false => exact h.advance_of_inner hpos settings hend
  | true =>
    have hinside : Inside True v Pen.Equal s s := ⟨hself.cursor, hin, hself.rest, hself.parens, hself.flat, hself.block⟩
    have hfolded := ((hinside.leave (View.closed_equal hshift) settings.keywords).foldComment_spec trivial settings.foldComments).2
    refine h.advance_of_atLineEnd hpos settings hend ?_ (.of_inField ?_)
    . rcases hfolded with hkept | hzero
      . rwa [hkept, lineDepth_leave]
      . rw [hzero]
        decide
    . unfold Scan.advance at hnext
      rw [step_of_atLineEnd settings hend, after_endLine] at hnext
      exact hnext

end Scan.Reports

/--
In the walk over all of a text, the number of open braces leaves the flags of a level alone.
-/
def DepthsInField (keywords : Keywords) (doc : Document) : Prop :=
  ∀ w, Iterates (!·.stopped) (Walk.next (.read keywords doc.options)) (.ofScan (.ofSpan (doc.spanOf 0 doc.size) doc)) w →
    Level.InField (0x400 + w.scan.lineDepth)

theorem DepthsInField.depthsFit (h : DepthsInField keywords doc) : DepthsFit keywords doc 0 doc.size :=
  fun w hrun => .of_inField (h w hrun)

theorem depthsInField_of_holdsAlong {bound : Nat}
    (h : holdsAlong (fun w => decide (Level.InField (0x400 + w.scan.lineDepth))) (!·.stopped)
      (Walk.next (.read keywords doc.options)) bound (.ofScan (.ofSpan (doc.spanOf 0 doc.size) doc)) = true) :
    DepthsInField keywords doc := by
  intro w hrun
  have hholds := hrun.of_holdsAlong h
  exact of_decide_eq_true hholds

/--
A pass begins with nothing seen.
-/
theorem reports_ofSpan (hdoc : doc.WellFormed) : (Scan.ofSpan (doc.spanOf 0 doc.size) doc).Reports doc := by
  obtain ⟨htext, hpos, hline, hstate⟩ := Cursor.OnText.start hdoc Style.default
  have hspan : doc.spanOf 0 doc.size = ⟨0, doc.size, Style.default⟩ := rfl
  rw [hspan, ofSpan_of_zero hline]
  generalize Cursor.start doc ⟨0, doc.size, Style.default⟩ = c at *
  refine ⟨htext.setLevel 0 _, fun l hl => ?_, fun _ _ => ?_⟩
  . have hl : l < c.line := hl
    omega
  . have hstart : c.atLineStart = true := by
      rw [htext.settled.atLineStart, hpos, startsLine_zero]
      rfl
    have habove : memoryAbove (c.setLevel 0 (Level.base ||| Level.headerFlag)).doc c.line = ⟨.nothing, false, false⟩ := by
      rw [hline]
      rfl
    show Scan.Unseen doc (memoryAbove (c.setLevel 0 _).doc c.line) c.line _
    rw [habove]
    exact .begun hstart rfl ⟨rfl, rfl, .inl hstate, fun i _ hi => absurd (show i < 0 from hpos ▸ hi) (Nat.not_lt_zero i)⟩

/--
All along a pass over a text, what has been stored is right.
-/
theorem reports_of_iterates {options : Options} (hoptions : doc.options = options) (hdoc : doc.WellFormed) (hsize : 0 < doc.size)
    (hfield : DepthsInField keywords doc)
    (hrun : Iterates (colouring keywords options).more (colouring keywords options).step (.ofSpan (doc.spanOf 0 doc.size) doc) s) :
    s.Reports doc := by
  subst hoptions
  have hlawful := lawful_colouring keywords doc.options
  have hgood := good_start keywords hdoc hsize hfield.depthsFit
  have halike : Scan.Alike True True (.ofRange doc 0 doc.size doc.size) Pen.Equal _ _ :=
    alike_start hdoc startsLine_zero hsize (.inr rfl) (fun _ => rfl) (fun _ => rfl)
  have hdepth : ∀ u, Iterates (colouring keywords doc.options).more (colouring keywords doc.options).step
      (.ofSpan (doc.spanOf 0 doc.size) doc) u → Level.InField (0x400 + u.lineDepth) :=
    fun u hru => hfield _ (iterates_ofScan rfl rfl halike hfield.depthsFit hru)
  have hstep : ∀ u : Scan, (colouring keywords doc.options).more u = true →
      Iterates (colouring keywords doc.options).more (colouring keywords doc.options).step (.ofSpan (doc.spanOf 0 doc.size) doc) u
        ∧ u.Reports doc →
      Iterates (colouring keywords doc.options).more (colouring keywords doc.options).step (.ofSpan (doc.spanOf 0 doc.size) doc)
          (u.advance (.read keywords doc.options))
        ∧ (u.advance (.read keywords doc.options)).Reports doc := by
    rintro u hmore ⟨hru, hu⟩
    have hru' := hru.tail hmore
    obtain ⟨v, hshift, hstop, hself, _⟩ := (hlawful.good_of_iterates hru hgood).alike
    have hin := (hself.cursor.more'_iff (by omega)).mp hmore
    exact ⟨hru', hu.advance hshift hself hin (hu.onText.more_iff.mp hmore) _ (hdepth u hru) (hdepth _ hru')⟩
  exact (hrun.invariant _ hstep ⟨.refl _, reports_ofSpan hdoc⟩).2

/--
All lines are right behind a pass over a text.
-/
theorem whiteOnlyIfBlank_colour {session : Session} (hsession : session.lexer = lexer) (hdoc : doc.WellFormed) (hsize : 0 < doc.size)
    (hfield : DepthsInField session.keywords doc) (hline : line < doc.lineCount) :
    WhiteOnlyIfBlank doc (session.colour doc 0 doc.size) line := by
  have hlawful := lawful_colouring session.keywords doc.options
  have hdrives : (colouring session.keywords doc.options).Drives session := drives_colouring hsession doc.options
  have hgood := good_start session.keywords hdoc hsize hfield.depthsFit
  obtain ⟨t, hrun, hend⟩ := hlawful.ends hgood
  have hreports : t.Reports doc := reports_of_iterates rfl hdoc hsize hfield hrun
  rw [hdrives.colour_eq hdoc hsize (.inr rfl), hlawful.colour_eq hdoc startsLine_zero hsize (.inr rfl) hgood ⟨hrun, hend⟩]
  have hlast : t.cursor.line = doc.lineCount - 1 + 1 := by
    have hover : ¬ t.cursor.pos ≤ doc.size := fun hle => Bool.false_ne_true (hend.symm.trans (hreports.onText.more_iff.mpr hle))
    have hpos := hreports.onText.pos_le
    refine (hreports.onText.line_of_behindLine hdoc (show doc.lineCount - 1 < doc.lineCount by omega) ?_).1
    rw [Document.behindLine, if_neg (by omega)]
    omega
  refine (hreports.lines line (by omega)).congr fun l _ => ⟨?_, ?_⟩
  . exact congrArg (fun states : Array LineState => (states[l]?).getD 0) (Pen.lineStates_colourTo _ _ _)
  . exact congrArg (fun levels : Array Level => (levels[l]?).getD Level.base) (Pen.levels_colourTo _ _ _)

/--
Where nothing is left open and characters end in front of terminators, no byte is overlooked.
-/
theorem not_overlooked {behind : Memory} (hopened : above.opened = .nothing) (hbraces : above.inBraces = false)
    (hsingle : ∀ page, doc.encoding ≠ .doubleByte page) : ¬ Overlooked doc above behind line i := by
  intro hover
  cases hover with
  | skipped hskipped _ =>
    cases hskipped with
    | comment hcomment => exact absurd (hopened.symm.trans hcomment) (by decide)
    | braces hopen _ _ _ => exact absurd (hbraces.symm.trans hopen) (by decide)
  | quote hquote _ => exact absurd (hopened.symm.trans hquote) (by decide)
  | braces hopen _ => exact absurd (hbraces.symm.trans hopen) (by decide)
  | @lead pos hle hlt hends =>
    obtain ⟨b, _, hread⟩ := Encoding.decodeAt_eq_of_endsLine doc.encoding hsingle hends
    rw [Document.decodeAt, hread] at hlt
    have hlt : i + 1 < pos + 1 := hlt
    omega

/--
In a text that is coloured from its start, a white line has no bytes but spaces and those that are overlooked. So it is blank if the
line above leaves nothing open, and no character of two bytes takes its terminator in.
-/
theorem blank_of_isWhite (session : Session) (hsession : session.lexer = lexer) (text : Array UInt8) (encoding : Encoding)
    (options : Options) (hfield : DepthsInField session.keywords (.fresh text encoding options)) (line : Nat) :
    let doc := Document.fresh text encoding options
    let styled := session.colour doc 0 text.size
    let above := memoryAbove styled line
    line < doc.lineCount → (styled.level line).isWhite = true →
      ∀ i, doc.lineStart line ≤ i → i < doc.lineStart (line + 1) →
        (Code.isSpace (doc.byteAt i 0x20).toNat = true ∨ Overlooked doc above (.unpack (styled.lineState line)) line i)
          ∧ (above.opened = .nothing → above.inBraces = false → (∀ page, encoding ≠ .doubleByte page) →
            Code.isSpace (doc.byteAt i 0x20).toNat = true) := by
  intro doc styled above hline hwhite i hle hlt
  have hdoc : doc.WellFormed := Document.wellFormed_fresh text encoding options
  have hsize : 0 < doc.size := Nat.lt_of_le_of_lt (Nat.zero_le i) (Nat.lt_of_lt_of_le hlt (hdoc.lineStart_le_size _))
  have hbyte := whiteOnlyIfBlank_colour hsession hdoc hsize hfield hline hwhite i hle hlt
  exact ⟨hbyte, fun hopened hbraces hsingle => hbyte.resolve_right (not_overlooked hopened hbraces hsingle)⟩

/--
A blank line within braces, and a line of a word in quotes that does not end on it.
-/
theorem blank_of_isWhite_quote :
    let session := Session.ofLexer lexer
    let text := "a \x7b\n\t\n\x7d \"b\nc\n\"\n".toUTF8.data
    let doc := Document.fresh text .utf8 .empty
    let styled := session.colour doc 0 text.size
    DepthsInField session.keywords doc ∧ (styled.level 1).isWhite = true ∧ Code.isSpace (doc.byteAt 4 0x20).toNat = true
      ∧ (styled.level 3).isWhite = true
      ∧ (Code.isSpace (doc.byteAt 11 0x20).toNat = true
        ∨ Overlooked doc (memoryAbove styled 3) (.unpack (styled.lineState 3)) 3 11) := by
  intro session text doc styled
  have hfield : DepthsInField session.keywords doc :=
    depthsInField_of_holdsAlong (show holdsAlong _ _ _ 40 _ = true by decide +kernel)
  have hwhite1 : (styled.level 1).isWhite = true := by decide +kernel
  have hwhite3 : (styled.level 3).isWhite = true := by decide +kernel
  have hline1 := blank_of_isWhite session rfl text .utf8 .empty hfield 1 (by decide +kernel) hwhite1 4 (by decide +kernel)
    (by decide +kernel)
  have hline3 := blank_of_isWhite session rfl text .utf8 .empty hfield 3 (by decide +kernel) hwhite3 11 (by decide +kernel)
    (by decide +kernel)
  exact ⟨hfield, hwhite1, hline1.2 (by decide +kernel) (by decide +kernel) (fun _ => nofun), hwhite3, hline3.1⟩

/--
Lines that are white although they show something: in a word in quotes, behind a backslash that continues a comment, and in and
at the end of a substitution with braces.
-/
theorem isWhite_of_visible :
    let session := Session.ofLexer lexer
    let text := "\"a\nb\n\"\n# c\\\nd\nset e $\x7bf\ng\n\x7d\n".toUTF8.data
    let doc := Document.fresh text .singleByte .empty
    let styled := session.colour doc 0 text.size
    DepthsInField session.keywords doc ∧ ∀ line ∈ [1, 4, 6, 7],
      (styled.level line).isWhite = true ∧ Code.isSpace (doc.byteAt (doc.lineStart line) 0x20).toNat = false := by
  intro session text doc styled
  exact ⟨depthsInField_of_holdsAlong (show holdsAlong _ _ _ 60 _ = true by decide +kernel), by decide +kernel⟩

end Highlight.Tcl
