import Highlight.Proofs.Gibiane.Overlay
import Highlight.Proofs.Gibiane.Parts
import Highlight.Proofs.Scss.Fold
import Highlight.Proofs.Session.Confined
import Highlight.Proofs.Session.Folding

/-!
Styling a text twice. The second time, colouring writes only what is there, and some of the levels that it wrote before
they were folded; from those, folding leaves what it has left the first time. Only Gibiane counts on from a depth that it
has stored itself, that of the first line.
-/

namespace Highlight

open LineIndex

variable {doc folded : Document} {session : Session} {stop : Nat}

theorem Document.SameSource.relevelled {doc' : Document} (h : doc.SameSource doc') (hstyles : doc'.styles = doc.styles)
    (hstates : doc'.lineStates = doc.lineStates) : doc.Relevelled doc' := by
  refine ⟨doc'.levels, h.levels, ?_⟩
  cases doc
  cases doc'
  simp only [Document.mk.injEq, true_and]
  exact ⟨h.text, hstyles, h.lines, hstates, h.options, h.encoding, h.endStyled⟩

section Colour

variable (hdoc : doc.WellFormed) (hpos : 0 < stop) (hstop : IsBoundary doc.text stop)
include hdoc hpos hstop

/--
Colouring what has been folded since it was coloured.
-/
theorem Colouring.LawfulPass.refolded_colour {σ : Type} {m : Colouring σ} (h : m.LawfulPass) (hgood : m.Good (m.start doc 0 stop))
    (hfolded : (m.colour doc 0 stop).Relevelled folded) :
    (m.colour doc 0 stop).Refolded folded (m.colour folded 0 stop) := by
  have hsame := h.sameSource_colour hdoc startsLine_zero hpos hstop hgood
  obtain ⟨hagain, hgood'⟩ := h.colour_again hdoc startsLine_zero hpos hstop hgood
  have hgood := hgood' (Nat.le_refl stop) hstop hgood
  generalize m.colour doc 0 stop = coloured at *
  have hwell := hsame.wellFormed hdoc
  have hstop' : IsBoundary coloured.text stop := by rwa [IsBoundary, hsame.text]
  have hgoes : m.goesOn coloured 0 folded 0 := by
    have hnoline : ∀ l : Nat, ¬l < coloured.lineOf 0 := by
      intro l
      rw [hwell.lineOf_zero]
      exact Nat.not_lt_zero l
    exact h.goesOn_of_agree hwell hfolded.sameSource (fun i hi => absurd hi (Nat.not_lt_zero i))
      (fun l hl => absurd hl (hnoline l)) (fun l hl => absurd hl (hnoline l))
  obtain ⟨hstyles, hstates⟩ := h.colour_congr_marks hwell startsLine_zero hpos hstop' hfolded.sameSource hfolded.styles hfolded.lineStates
    hgoes hgood
  obtain ⟨pen, pen', hpens, hcolour, hcolour'⟩ := h.overlaid_colour hwell startsLine_zero hpos hstop' hfolded.sameSource hgoes hgood
  have hgood_folded := h.good_over hwell startsLine_zero hpos hstop' hfolded.sameSource hgoes hgood
  have hsame' := h.sameSource_colour (hfolded.sameSource.wellFormed hwell) startsLine_zero hpos
    (by rwa [IsBoundary, hfolded.sameSource.text]) hgood_folded
  rw [hagain] at hstyles hstates hcolour
  refine ⟨(hfolded.sameSource.trans hsame').relevelled hstyles hstates, ?_⟩
  intro l
  rw [hcolour']
  rcases hpens.levels l with heq | ⟨_, heq⟩
  . left
    rw [hcolour]
    exact heq
  . exact .inr heq

omit hpos in
theorem Sql.refolded_pass (keywords : Keywords) (hfolded : (pass keywords doc 0 stop).Relevelled folded) :
    (pass keywords doc 0 stop).Refolded folded (pass keywords folded 0 stop) := by
  have hsame := (framed_pass hdoc (Nat.zero_le stop) hstop keywords).sameSource
  have hagain : pass keywords (pass keywords doc 0 stop) 0 stop = pass keywords doc 0 stop :=
    pass_extend hdoc (Nat.zero_le stop) hstop (Nat.le_refl stop) hstop
  generalize pass keywords doc 0 stop = coloured at *
  have hwell := hsame.wellFormed hdoc
  have hstop' : IsBoundary coloured.text stop := by rwa [IsBoundary, hsame.text]
  have hframed := framed_pass (hfolded.sameSource.wellFormed hwell) (Nat.zero_le stop)
    (by rwa [IsBoundary, hfolded.sameSource.text]) keywords
  have hshows := View.shows_ofWhole hwell hfolded.sameSource (Nat.zero_le coloured.size)
  have hstyles : (pass keywords folded 0 stop).styles = coloured.styles := by
    apply Array.ext_getElem?
    intro i
    by_cases hi : i < stop
    . have hpass : (pass keywords folded 0 stop).styles[i]? = (pass keywords coloured 0 stop).styles[i]? :=
        styles_pass hshows rfl rfl (Nat.zero_le stop) hstop'.le_size keywords (Nat.zero_le i) hi
      rw [hpass, hagain]
    . rw [hframed.styles i (.inr (Nat.le_of_not_lt hi)), hfolded.styles]
  have hstates : (pass keywords folded 0 stop).lineStates = coloured.lineStates := hframed.lineStates.trans hfolded.lineStates
  refine ⟨(hfolded.sameSource.trans hframed.sameSource).relevelled hstyles hstates, fun l => .inr ?_⟩
  rw [hframed.levels]

/--
How a session colours, in every language: it writes marks only, and of what has been folded since, it writes levels only.
-/
theorem Session.exists_colours {language : Language} (hsession : session.lexer = language.lexer) :
    ∃ colour, session.Colours colour ∧ doc.SameSource (colour doc 0 stop)
      ∧ ∀ {folded}, (colour doc 0 stop).Relevelled folded → (colour doc 0 stop).Refolded folded (colour folded 0 stop) := by
  by_cases hsql : language = .sql
  . subst hsql
    exact ⟨_, Sql.colours_pass hsession, (Sql.framed_pass hdoc (Nat.zero_le stop) hstop _).sameSource, Sql.refolded_pass hdoc hstop _⟩
  . obtain ⟨σ, m, hlawful, hdrives, hgood⟩ := exists_lawfulPass hsql hsession hdoc startsLine_zero hpos hstop (fun _ => rfl)
    exact ⟨_, hdrives, hlawful.sameSource_colour hdoc startsLine_zero hpos hstop hgood, hlawful.refolded_colour hdoc hpos hstop hgood⟩

theorem Session.sameSource_colour {language : Language} (hsession : session.lexer = language.lexer) :
    doc.SameSource (session.colour doc 0 stop) := by
  obtain ⟨colour, hcolours, hsame, _⟩ := exists_colours hdoc hpos hstop hsession
  rwa [hcolours.colour_eq hdoc hpos hstop]

theorem Session.refolded_colour {language : Language} (hsession : session.lexer = language.lexer)
    (hfolded : (session.colour doc 0 stop).Relevelled folded) :
    (session.colour doc 0 stop).Refolded folded (session.colour folded 0 stop) := by
  obtain ⟨colour, hcolours, hsame, hrefolded⟩ := exists_colours hdoc hpos hstop hsession
  rw [hcolours.colour_eq hdoc hpos hstop] at hfolded ⊢
  have hsame' := hsame.trans hfolded.sameSource
  rw [hcolours.colour_eq (hsame'.wellFormed hdoc) hpos (by rwa [IsBoundary, hsame'.text])]
  exact hrefolded hfolded

end Colour

/--
Folding `doc` writes nothing but levels, and folding what it leaves, with some of the levels in front of it, leaves the
same again.
-/
structure Settles (fold : Document → Document) (doc : Document) : Prop where
  relevelled : doc.Relevelled (fold doc)
  again : ∀ doc', doc.Refolded (fold doc) doc' → fold doc' = fold doc

namespace Settles

variable {fold fold' : Document → Document}

theorem congr (h : Settles fold' doc) (hfold : ∀ doc', doc.Relevelled doc' → fold doc' = fold' doc') : Settles fold doc := by
  have hself := hfold doc (.refl doc)
  constructor
  . rw [hself]
    exact h.relevelled
  . intro doc' hdoc'
    rw [hself] at hdoc' ⊢
    rw [hfold doc' hdoc'.relevelled]
    exact h.again doc' hdoc'

theorem of_overlaid (hrelevelled : doc.Relevelled (fold doc))
    (hfold : ∀ doc', doc.Refolded (fold doc) doc' → Document.Overlaid doc doc' (fold doc) (fold doc')) : Settles fold doc :=
  ⟨hrelevelled, fun doc' hdoc' => (hfold doc' hdoc').eq_of_refolded hrelevelled hdoc'⟩

/--
Where there is nothing to fold.
-/
theorem id (doc : Document) : Settles (fun doc => doc) doc :=
  of_overlaid (.refl doc) fun _ hdoc' => .of_relevelled hdoc'.relevelled

end Settles

section Fold

variable (hdoc : doc.WellFormed) (hpos : 0 < stop) (hstop : IsBoundary doc.text stop)
include hdoc hpos hstop

theorem Folding.Lawful.settles {σ : Type} {m : Folding σ} (h : m.Lawful) (hdrives : m.Drives session doc.options)
    (hoverlaid : ∀ {doc'}, doc.Relevelled doc' → doc'.levelBefore (doc.lineOf 0) = doc.levelBefore (doc.lineOf 0) →
      Document.Overlaid doc doc' (m.fold doc 0 stop) (m.fold doc' 0 stop)) : Settles (session.fold · 0 stop) doc := by
  have hsettles : Settles (m.fold · 0 stop) doc := by
    refine .of_overlaid (h.relevelled_fold doc 0 stop) fun doc' hdoc' => hoverlaid hdoc'.relevelled ?_
    rw [hdoc.lineOf_zero, Document.levelBefore_zero, Document.levelBefore_zero]
  refine hsettles.congr fun doc' hdoc' => ?_
  have hsame := hdoc'.sameSource
  exact hdrives.fold_eq hsame.options (hsame.wellFormed hdoc) startsLine_zero hpos (by rwa [IsBoundary, hsame.text])

/--
Folding in every language but Gibiane.
-/
theorem Session.settles_fold {language : Language} (hgibiane : language ≠ .gibiane) (hsession : session.lexer = language.lexer) :
    Settles (session.fold · 0 stop) doc := by
  obtain ⟨span, _, hfold⟩ := session.exists_fold_eq hdoc startsLine_zero hpos hstop
  rw [hsession] at hfold
  cases language with
  | rust =>
    cases henabled : (Rust.FoldOptions.read doc.options).enabled with
    | true =>
      exact (Rust.lawful_byteFold _).folding.settles hdoc hpos hstop (Rust.drives_folding hsession henabled)
        fun hdoc' hlevel => Rust.overlaid_fold _ hdoc' hlevel (Nat.zero_le stop)
    | false =>
      exact (Settles.id doc).congr fun doc' hdoc' =>
        Rust.session_fold_of_disabled hsession doc' (by rwa [hdoc'.sameSource.options]) 0 stop
  | haskell => exact (Settles.id doc).congr hfold
  | tcl => exact (Settles.id doc).congr hfold
  | scss =>
    have hrelevelled := Scss.relevelled_fold session.keywords span
    have hsettles : Settles (Scss.fold session.keywords span) doc :=
      ⟨hrelevelled doc, fun doc' hdoc' =>
        (hrelevelled doc).eq_of_levels (hdoc'.relevelled.trans (hrelevelled doc')) (Scss.fold_of_refolded hdoc')⟩
    exact hsettles.congr hfold
  | r =>
    exact (R.lawful_byteFold _).folding.settles hdoc hpos hstop (R.drives_folding hsession _)
      fun hdoc' hlevel => R.overlaid_fold _ hdoc' hlevel (Nat.zero_le stop)
  | sql =>
    exact (Sql.lawful_folding _).settles hdoc hpos hstop (Sql.drives_folding hsession _)
      fun hdoc' hlevel => Sql.overlaid_fold _ hdoc' hlevel
  | gibiane => exact absurd rfl hgibiane

end Fold

namespace Gibiane

variable {span : Span} {keywords : Keywords} (hdoc : doc.WellFormed) (hspan : doc.wholeLines span = doc.spanOf 0 stop)
include hdoc hspan

/--
Folding Gibiane, if that leaves the depth of the first line.
-/
theorem settles_fold (hnumber : ((fold keywords span doc).level 0).number = (doc.level 0).number) :
    Settles (fold keywords span) doc := by
  refine .of_overlaid (relevelled_fold keywords span doc) fun doc' hdoc' => overlaid_fold keywords span hdoc'.relevelled ?_
  have hline : doc.lineOf (doc.wholeLines span).start - 1 = 0 := by
    rw [hspan]
    show doc.lineOf 0 - 1 = 0
    rw [hdoc.lineOf_zero]
  rw [hline, Document.level]
  rcases hdoc'.levels 0 with heq | heq
  . rw [heq]
    rfl
  . rw [heq]
    exact hnumber

/--
A pass that leaves the levels from which it has started has not changed the depth of the first line.
-/
theorem number_of_fold_eq {doc' : Document} (hdoc' : doc.Relevelled doc') (hlevels : doc'.levels = (fold keywords span doc).levels)
    (hfold : fold keywords span doc' = fold keywords span doc) :
    ((fold keywords span doc).level 0).number = (doc.level 0).number := by
  have hlevel : doc'.level 0 = (fold keywords span doc).level 0 := by
    rw [Document.level, Document.level, hlevels]
  have hnumber := number_fold_sub hdoc hdoc' hspan keywords
  rw [hfold, hlevel] at hnumber
  have hbounds := (doc.level 0).number_bounds
  have hbounds' := ((fold keywords span doc).level 0).number_bounds
  rw [← Int32.toInt_inj]
  omega

end Gibiane

/--
Folding a second time goes on from the depth of the first line that the first time has stored.
-/
theorem Gibiane.style_style_eq_iff (hdoc : doc.WellFormed) (hpos : 0 < stop) (hstop : IsBoundary doc.text stop)
    (hsession : session.lexer = lexer) :
    session.style (session.style doc 0 stop) 0 stop = session.style doc 0 stop
      ↔ ((session.style doc 0 stop).level 0).number = (doc.level 0).number := by
  have hlanguage : session.lexer = Language.gibiane.lexer := hsession
  have hcoloured : doc.SameSource (session.colour doc 0 stop) := Session.sameSource_colour hdoc hpos hstop hlanguage
  have hdrives : (pass session.keywords).Drives session := drives_pass hsession
  have hlevels : ∀ doc' : Document, doc.SameSource doc' → (session.colour doc' 0 stop).levels = doc'.levels := by
    intro doc' hsame
    rw [hdrives.colour_eq (hsame.wellFormed hdoc) hpos (by rwa [IsBoundary, hsame.text])]
    exact levels_colour _ _ _
  have hwell := hcoloured.wellFormed hdoc
  obtain ⟨span, hspan, hfold⟩ := session.exists_fold_eq hwell startsLine_zero hpos (by rwa [IsBoundary, hcoloured.text])
  rw [hsession] at hfold
  have hfold : ∀ doc', (session.colour doc 0 stop).Relevelled doc' → session.fold doc' 0 stop = fold session.keywords span doc' := hfold
  have hrelevelled := relevelled_fold session.keywords span (session.colour doc 0 stop)
  have hrefolded := Session.refolded_colour hdoc hpos hstop hlanguage hrelevelled
  have hnumber : ((session.colour doc 0 stop).level 0).number = (doc.level 0).number := by
    rw [Document.level, Document.level, hlevels doc (.refl doc)]
  rw [Session.style, Session.style, hfold _ (.refl _), hfold _ hrefolded.relevelled, ← hnumber]
  constructor
  . intro hagain
    exact number_of_fold_eq hwell hspan hrefolded.relevelled (hlevels _ (hcoloured.trans hrelevelled.sameSource)) hagain
  . intro hnumber
    exact (settles_fold hwell hspan hnumber).again _ hrefolded

/--
Styling a text twice, in every language. It leaves what styling it once does, unless the words of the first line of a
Gibiane text change the depth of that line.
-/
theorem Session.style_again_iff (language : Language) (session : Session) (hsession : session.lexer = language.lexer)
    (doc : Document) (hdoc : doc.WellFormed) :
    session.style (session.style doc 0 doc.size) 0 doc.size = session.style doc 0 doc.size
      ↔ (language = .gibiane → ((session.style doc 0 doc.size).level 0).number = (doc.level 0).number) := by
  rcases Nat.eq_zero_or_pos doc.size with hzero | hpos
  . have hstyle : session.style doc 0 doc.size = doc := by
      rw [Session.style, Session.colour_of_le (by omega), Folding.fold_of_le (by omega)]
    rw [hstyle, hstyle]
    exact ⟨fun _ _ => rfl, fun _ => rfl⟩
  . have hstop : IsBoundary doc.text doc.size := .inr rfl
    by_cases hgibiane : language = .gibiane
    . subst hgibiane
      rw [Gibiane.style_style_eq_iff hdoc hpos hstop hsession]
      exact ⟨fun h _ => h, fun h => h rfl⟩
    . have hsame := sameSource_colour hdoc hpos hstop hsession
      have hsettles := settles_fold (hsame.wellFormed hdoc) hpos (by rwa [IsBoundary, hsame.text]) hgibiane hsession
      exact ⟨fun _ h => absurd h hgibiane, fun _ => hsettles.again _ (refolded_colour hdoc hpos hstop hsession hsettles.relevelled)⟩

/--
A middle part of a block that starts below the first line.
-/
theorem Session.style_again_iff_else_below :
    let session := ((Session.ofLexer Language.gibiane.lexer).setKeywords 0 "si sinon finsi").1
    let doc := Document.fresh "si x;\nsinon;\nfinsi;\n".toUTF8.data .singleByte .empty
    session.style (session.style doc 0 doc.size) 0 doc.size = session.style doc 0 doc.size := by
  intro session doc
  exact (style_again_iff .gibiane session rfl doc (Document.wellFormed_fresh _ _ _)).mpr (fun _ => by decide +kernel)

/--
A middle part on the first line. It takes the line and all that follow one step down, each time that they are styled.
-/
theorem Session.style_again_ne_style_else_first :
    let session := ((Session.ofLexer Language.gibiane.lexer).setKeywords 0 "si sinon finsi").1
    let doc := Document.fresh "si x; sinon;\ny;\nfinsi;\n".toUTF8.data .singleByte .empty
    (session.style doc 0 doc.size).levels = #[9215, 1025, 1025, 1024]
      ∧ (session.style (session.style doc 0 doc.size) 0 doc.size).levels = #[9214, 1024, 1024, 1024] := by
  decide +kernel

end Highlight
