import Highlight.Proofs.Gibiane.Restart
import Highlight.Proofs.Gibiane.Resume
import Highlight.Proofs.Session.Folding

/-!
Styling Gibiane in two parts. The pass that colours neither reads levels nor writes them, so it does not show whether
the lines in front of it have been folded; and the pass that folds counts the line above its range once more.
-/

namespace Highlight.Gibiane

open LineIndex FoldScan

section Colour

theorem levels_leave (keywords : Keywords) (token : String) (c : Cursor) :
    (Scan.leave keywords token c).doc.levels = c.doc.levels := by
  unfold Scan.leave
  split
  . split
    . exact Cursor.levels_setState _ _
    . rfl
  . split
    . exact (Cursor.levels_setState _ _).trans (congrArg Document.levels (Cursor.doc_forward c))
    . rfl
  . exact Cursor.levels_setState _ _
  . split
    . exact Cursor.levels_setState _ _
    . rfl

theorem levels_enter (keywords : Keywords) (token : String) (s : Scan) :
    (s.enter keywords token).cursor.doc.levels = s.cursor.doc.levels := by
  unfold Scan.enter
  dsimp only
  split
  . rfl
  . split
    . exact Cursor.levels_setState _ _
    . split
      . exact Cursor.levels_setState _ _
      . split
        . exact Cursor.levels_setState _ _
        . split
          . exact Cursor.levels_setState (s.cursor.changeState _) _
          . split
            . exact Cursor.levels_setState (s.cursor.changeState _) _
            . rfl

theorem levels_step (keywords : Keywords) (s : Scan) : (s.step keywords).cursor.doc.levels = s.cursor.doc.levels := by
  unfold Scan.step
  show Document.levels (Cursor.forward _).doc = _
  rw [Cursor.doc_forward, levels_enter]
  exact levels_leave _ _ _

/--
Colouring writes no levels.
-/
theorem levels_colour (keywords : Keywords) (span : Span) (doc : Document) : (colour keywords span doc).levels = doc.levels := by
  have hrun := iterates_repeatWhile (fun s : Scan => s.cursor.more) (Scan.step keywords) (Scan.ofSpan span doc).cursor.remaining
    (Scan.ofSpan span doc)
  have hlevels := hrun.invariant (fun s => s.cursor.doc.levels = doc.levels) (fun s _ hs => (levels_step keywords s).trans hs) rfl
  exact (Pen.levels_colourTo _ _ _).trans hlevels

end Colour

section Fold

variable {session : Session} {doc : Document} {pos stop : Nat} (hlexer : session.lexer = lexer) (hdoc : doc.WellFormed)
include hlexer hdoc

theorem exists_fold_eq {start : Nat} (hstart : startsLine doc.text start = true) (hlt : start < stop)
    (hstop : IsBoundary doc.text stop) :
    ∃ span, doc.wholeLines span = doc.spanOf start stop ∧ session.fold doc start stop = fold session.keywords span doc := by
  obtain ⟨span, hspan, hfold⟩ := session.exists_fold_eq hdoc hstart hlt hstop
  rw [hlexer] at hfold
  exact ⟨span, hspan, hfold doc (.refl doc)⟩

/--
Folding from a line start on, behind a pass over all of the text that has come by there.
-/
theorem session_fold_scanAt (hpos : startsLine doc.text pos = true) (hpositive : 0 < pos) (hfits : LevelsFit doc)
    (hfinds : FindsFirstWord doc pos) :
    session.fold (scanAt doc pos).sweep.doc pos doc.size = (scanAt doc doc.size).sweep.doc := by
  have hrelevelled := (stands_scanAt hdoc pos).relevelled
  have hle : pos ≤ doc.size := le_size_of_startsLine hpos
  rcases Nat.eq_or_lt_of_le hle with heq | hlt
  . rw [Folding.fold_of_le (by rw [hrelevelled.sameSource.size]; omega), heq]
  . have hrestart := doc_restart hdoc hpos hpositive hlt hfits hfinds
    generalize (scanAt doc pos).sweep.doc = folded at hrelevelled hrestart ⊢
    obtain ⟨levels, hsize, rfl⟩ := hrelevelled
    have hfolded := (Document.Relevelled.sameSource ⟨levels, hsize, rfl⟩).wellFormed hdoc
    obtain ⟨span, hspan, hfold⟩ := exists_fold_eq hlexer hfolded hpos hlt (.inr rfl)
    rw [hfold]
    exact (fold_eq_scan_above hfolded hpos hpositive hlt hspan session.keywords).trans hrestart

/--
Folding the lines in front of a line start while what is behind it still has other styles, and folding the rest once it
has its own, is folding all of the text at once.
-/
theorem session_fold_eq {styles : Array Style} {lineStates : Array LineState} (hpos : startsLine doc.text pos = true)
    (hstyles : styles.size = doc.styles.size) (hstates : lineStates.size = doc.lineStates.size)
    (hagree : doc.AgreesBelow styles lineStates pos) (hfits : LevelsFit doc) (hfinds : FindsFirstWord doc pos) :
    session.fold ((session.fold (doc.restyle styles lineStates) 0 pos).restyle doc.styles doc.lineStates) pos doc.size
      = session.fold doc 0 doc.size := by
  have hle : pos ≤ doc.size := le_size_of_startsLine hpos
  rcases Nat.eq_zero_or_pos pos with rfl | hpositive
  . rw [Folding.fold_of_le (Nat.min_le_left _ _)]
    rfl
  . have hfront := hdoc.restyle hstyles hstates
    obtain ⟨span, hspan, hfold⟩ := exists_fold_eq hlexer hfront startsLine_zero hpositive (.inl hpos)
    obtain ⟨whole, hwhole, hfold'⟩ := exists_fold_eq hlexer hdoc startsLine_zero (show 0 < doc.size by omega) (.inr rfl)
    rw [hfold, hfold', fold_eq_scan hfront hspan, fold_eq_scan hdoc hwhole]
    exact (congrArg (session.fold · pos doc.size) (doc_restyle hdoc hpos hagree)).trans
      (session_fold_scanAt hlexer hdoc hpos hpositive hfits hfinds)

end Fold

section Style

variable {session : Session} {doc : Document} {pos stop : Nat}

theorem relevelled_session_fold (hlexer : session.lexer = lexer) (hdoc : doc.WellFormed) (hpos : 0 < stop)
    (hstop : IsBoundary doc.text stop) : doc.Relevelled (session.fold doc 0 stop) := by
  obtain ⟨span, hspan, hfold⟩ := exists_fold_eq hlexer hdoc startsLine_zero hpos hstop
  rw [hfold]
  exact relevelled_fold session.keywords span doc

/--
Colouring the rest gives it the same styles whether the lines in front of it have been folded or not.
-/
theorem colour_relevelled {keywords : Keywords} {front folded : Document} (hkeywords : Bounded keywords) (hfront : front.WellFormed)
    (hrelevelled : front.Relevelled folded) (hpos : startsLine front.text pos = true) (hlt : pos < stop)
    (hstop : IsBoundary front.text stop) (hgood : (colouring keywords).Good ((colouring keywords).start front pos stop)) :
    (colouring keywords).colour folded pos stop
      = folded.restyle ((colouring keywords).colour front pos stop).styles ((colouring keywords).colour front pos stop).lineStates := by
  have hlawful := lawful_colouring hkeywords
  have hsame := hrelevelled.sameSource
  have hgoes : (colouring keywords).goesOn front pos folded pos := by
    obtain ⟨levels, _, rfl⟩ := hrelevelled
    exact ⟨rfl, rfl⟩
  obtain ⟨hstyles, hstates⟩ := hlawful.colour_congr_marks hfront hpos hlt hstop hsame hrelevelled.styles hrelevelled.lineStates hgoes hgood
  have hgood' := hlawful.good_over hfront hpos hlt hstop hsame hgoes hgood
  have hsame' := hlawful.sameSource_colour (hsame.wellFormed hfront) (by rwa [hsame.text]) hlt (by rwa [IsBoundary, hsame.text]) hgood'
  rw [← hstyles, ← hstates]
  exact hsame'.eq_restyle (levels_colour keywords _ _)

section Front

variable (hlexer : session.lexer = lexer) (hkeywords : Bounded session.keywords) (hdoc : doc.WellFormed)
  (hsingle : ∀ page, doc.encoding ≠ .doubleByte page) (hpos : startsLine doc.text pos = true) (hpositive : 0 < pos)
include hlexer hkeywords hdoc hsingle hpos hpositive

theorem sameSource_front : doc.SameSource (session.colour doc 0 pos) := by
  have hle : pos ≤ doc.size := le_size_of_startsLine hpos
  have hlawful := lawful_colouring hkeywords
  have hdrives : (colouring session.keywords).Drives session := drives_colouring hlexer
  have hgood := good_start session.keywords hdoc (show 0 < doc.size by omega) hsingle
  rw [hdrives.colour_eq hdoc hpositive (.inl hpos)]
  exact hlawful.sameSource_colour hdoc startsLine_zero hpositive (.inl hpos)
    (hlawful.good_part hdoc startsLine_zero hpositive (.inl hpos) hle (.inr rfl) hgood)

theorem relevelled_front : (session.colour doc 0 pos).Relevelled (session.style doc 0 pos) := by
  have hsame := sameSource_front hlexer hkeywords hdoc hsingle hpos hpositive
  exact relevelled_session_fold hlexer (hsame.wellFormed hdoc) hpositive (.inl (by rwa [hsame.text]))

/--
What colouring the front leaves, colouring all of the text leaves there too, and the rest is coloured behind the folded
front as if all of the text were coloured.
-/
theorem colour_style_front (hlt : pos < doc.size) :
    let front := session.colour doc 0 pos
    let whole := session.colour doc 0 doc.size
    front.SameSource whole ∧ whole.AgreesBelow front.styles front.lineStates pos
      ∧ front = whole.restyle front.styles front.lineStates
      ∧ session.colour (session.style doc 0 pos) pos doc.size = (session.style doc 0 pos).restyle whole.styles whole.lineStates := by
  have hlawful := lawful_colouring hkeywords
  have hdrives : (colouring session.keywords).Drives session := drives_colouring hlexer
  have hgood := good_start session.keywords hdoc (show 0 < doc.size by omega) hsingle
  have hsame := sameSource_front hlexer hkeywords hdoc hsingle hpos hpositive
  have hrelevelled := relevelled_front hlexer hkeywords hdoc hsingle hpos hpositive
  obtain ⟨hsplit, hgood'⟩ := hlawful.colour_split hdoc startsLine_zero hpositive hpos hlt (.inr rfl) hgood
  have hfront := hdrives.colour_eq hdoc hpositive (.inl hpos)
  have hwhole := hdrives.colour_eq hdoc (show 0 < doc.size by omega) (.inr rfl)
  have hlevels : (session.colour doc 0 pos).levels = doc.levels := by
    rw [hfront]
    exact levels_colour _ _ _
  have hlevels' : (session.colour doc 0 doc.size).levels = doc.levels := by
    rw [hwhole]
    exact levels_colour _ _ _
  rw [← hfront, ← hwhole] at hsplit
  rw [← hfront] at hgood'
  dsimp only
  generalize session.colour doc 0 pos = front at *
  generalize session.colour doc 0 doc.size = whole at *
  generalize session.style doc 0 pos = folded at *
  have hfrontDoc := hsame.wellFormed hdoc
  have hpos' : startsLine front.text pos = true := by rwa [hsame.text]
  have hstop : IsBoundary front.text doc.size := .inr (by rw [hsame.text]; rfl)
  obtain ⟨pen, hframed, hpen⟩ := hlawful.framed_colour hfrontDoc hpos' hlt hstop hgood'
  rw [← hsplit] at hpen
  have hsame' : front.SameSource whole := by
    rw [hpen]
    exact hframed.sameSource
  refine ⟨hsame', ⟨?_, ?_⟩, hsame'.symm.eq_restyle (hlevels.trans hlevels'.symm), ?_⟩
  . intro i hi
    rw [hpen]
    exact (hframed.styles i (.inl hi)).symm
  . intro l hl
    rw [hsame'.lineOf] at hl
    rw [hpen]
    exact (hframed.lineStates l (.inl hl)).symm
  . have htext : folded.text = doc.text := hrelevelled.sameSource.text.trans hsame.text
    have hsize : folded.size = doc.size := hrelevelled.sameSource.size.trans hsame.size
    have hceil : lineCeil doc.text doc.size = doc.size := lineCeil_of_isBoundary (.inr rfl)
    rw [hdrives.colour_of_lt (hrelevelled.sameSource.wellFormed hfrontDoc) (by omega), hsize, Nat.min_self, htext,
      lineFloor_of_startsLine hpos, hceil, hsplit]
    exact colour_relevelled hkeywords hfrontDoc hrelevelled hpos' hlt hstop hgood'

end Front

/--
Styling Gibiane in two parts, cut at a line start, is styling all of it at once: the styles, the line states and the
levels are the same. The depths of the lines have to fit into levels, and the pass over the second part has to find the
first word of the line that it counts once more.
-/
theorem style_style_eq_style (session : Session) (hlexer : session.lexer = lexer)
    (htexts : ∀ list ∈ session.keywords, ∃ text, list = .ofText text)
    (hlength : ∀ list ∈ session.keywords, ∀ word ∈ list.words, (Utf8.encode word).length < 98)
    (doc : Document) (hdoc : doc.WellFormed) (hsingle : ∀ page, doc.encoding ≠ .doubleByte page)
    (pos : Nat) (hpos : startsLine doc.text pos = true)
    (hfits : LevelsFit (session.colour doc 0 doc.size)) (hfinds : FindsFirstWord (session.colour doc 0 doc.size) pos) :
    session.style (session.style doc 0 pos) pos doc.size = session.style doc 0 doc.size := by
  have hle : pos ≤ doc.size := le_size_of_startsLine hpos
  rcases Nat.eq_zero_or_pos pos with rfl | hpositive
  . rw [Session.style.eq_1 session doc 0 0, Session.colour_of_le (Nat.min_le_left _ _), Folding.fold_of_le (Nat.min_le_left _ _)]
  have hkeywords := bounded_of_ofText htexts hlength
  have hsame := sameSource_front hlexer hkeywords hdoc hsingle hpos hpositive
  have hrelevelled := relevelled_front hlexer hkeywords hdoc hsingle hpos hpositive
  rcases Nat.eq_or_lt_of_le hle with rfl | hlt
  . have hsize := hrelevelled.sameSource.size.trans hsame.size
    rw [Session.style.eq_1 session (session.style _ _ _), Session.colour_of_le (by omega), Folding.fold_of_le (by omega)]
  . obtain ⟨hsame', hagree, hfront, hrest⟩ := colour_style_front hlexer hkeywords hdoc hsingle hpos hpositive hlt
    have hwhole := hsame.trans hsame'
    have hfold := session_fold_eq hlexer (hwhole.wellFormed hdoc) (by rwa [hwhole.text]) hsame'.symm.styles hsame'.symm.lineStates
      hagree hfits hfinds
    rw [← hfront, hwhole.size] at hfold
    rw [Session.style.eq_1 session (session.style _ _ _), hrest]
    exact hfold

/--
A cut in a string, behind blocks that are open.
-/
theorem style_style_eq_style_open_string :
    let session := ((Session.ofLexer lexer).setKeywords 0 "si").1
    let doc := Document.fresh "si x\n  si y\n'a\n si b'\nfin;\nfin;\nb".toUTF8.data .singleByte .empty
    session.style (session.style doc 0 15) 15 doc.size = session.style doc 0 doc.size := by
  intro session doc
  have hlists : ∀ list ∈ session.keywords, list = .ofText "si" ∨ list = .ofText "" := by decide +kernel
  refine style_style_eq_style session rfl ?_ (by decide +kernel) doc (Document.wellFormed_fresh _ _ _) nofun 15 (by decide +kernel)
    (by decide +kernel) (by decide +kernel)
  intro list hlist
  rcases hlists list hlist with heq | heq
  . exact ⟨_, heq⟩
  . exact ⟨_, heq⟩

/--
Where a string goes on at the cut, the first word of the line above is not found if it stands at the start of that line.
The line is then stored without what the word opens.
-/
theorem style_style_ne_style :
    let session := ((Session.ofLexer lexer).setKeywords 0 "si").1
    let doc := Document.fresh "\nsi 'a\nb".toUTF8.data .singleByte .empty
    startsLine doc.text 7 = true ∧ LevelsFit (session.colour doc 0 doc.size)
      ∧ (session.style (session.style doc 0 7) 7 doc.size).levels ≠ (session.style doc 0 doc.size).levels := by
  decide +kernel

/--
A keyword that fills what is looked up of a token can be told with a line end behind it, in a text that is not cut there.
-/
theorem style_style_ne_style_long_keyword :
    let word := String.ofList (.replicate 98 'a')
    let session := ((Session.ofLexer lexer).setKeywords 0 word).1
    let doc := Document.fresh ("'" ++ word ++ "\nsi x\n'\nb").toUTF8.data .singleByte .empty
    startsLine doc.text 100 = true ∧ LevelsFit (session.colour doc 0 doc.size) ∧ FindsFirstWord (session.colour doc 0 doc.size) 100
      ∧ (session.style (session.style doc 0 100) 100 doc.size).levels ≠ (session.style doc 0 doc.size).levels := by
  decide +kernel

end Style

end Highlight.Gibiane
