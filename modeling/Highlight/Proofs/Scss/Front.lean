import Highlight.Proofs.Scss.Fold
import Highlight.Proofs.Scss.Resume
import Highlight.Proofs.Session.Levels

/-!
Folding SCSS goes by nothing behind a limit. A pass starts with the depth that the level of its first line keeps, and
leaves the depth of the line that it ends on.
-/

namespace Highlight.Scss

open LineIndex

variable {session : Session} (hlexer : session.lexer = lexer)
include hlexer

theorem relevels : session.Relevels :=
  .of_lexer hlexer (relevelled_fold session.keywords)

theorem session_fold_eq {doc : Document} (hdoc : doc.WellFormed) {start stop : Nat} (hstart : startsLine doc.text start = true)
    (hlt : start < stop) (hstop : IsBoundary doc.text stop) :
    session.fold doc start stop
      = storeDepth (stepsTo (foldByte (.read doc.options))
          (.ofDepth doc (doc.lineOf start) (doc.level (doc.lineOf start)).number.toInt) start stop) := by
  obtain ⟨span, hspan, hfold⟩ := session.exists_fold_eq hdoc hstart hlt hstop
  rw [hlexer] at hfold
  rw [hfold doc (.refl doc)]
  show fold session.keywords span doc = _
  rw [fold_eq, hspan]
  rfl

theorem session_fold_eq_sweepAt {doc : Document} (hdoc : doc.WellFormed) {stop : Nat} (hpos : 0 < stop) (hstop : IsBoundary doc.text stop) :
    session.fold doc 0 stop = storeDepth (sweepAt doc stop) := by
  rw [session_fold_eq hlexer hdoc startsLine_zero hpos hstop, hdoc.lineOf_zero]
  rfl

theorem number_colour (doc : Document) (start stop line : Nat) :
    ((session.colour doc start stop).level line).number = (doc.level line).number :=
  Session.number_colour (hlexer ▸ levels_colour session.keywords) doc start stop line

/--
The level of the first line keeps its depth.
-/
theorem number_session_fold {doc : Document} (hdoc : doc.WellFormed) {stop : Nat} (hstop : IsBoundary doc.text stop) :
    ((session.fold doc 0 stop).level 0).number = (doc.level 0).number := by
  rcases Nat.eq_zero_or_pos stop with rfl | hpos
  . rw [Folding.fold_of_le (Nat.min_le_left _ _)]
  . obtain ⟨span, hspan, hfold⟩ := session.exists_fold_eq hdoc startsLine_zero hpos hstop
    have hnumber := number_fold session.keywords span doc
    rw [hspan, show doc.lineOf (doc.spanOf 0 stop).start = 0 from hdoc.lineOf_zero] at hnumber
    rw [hfold doc (.refl doc), hlexer]
    exact hnumber

/--
A session whose folding goes on at a line start, if the depths of the lines fit into levels.
-/
theorem refolds {options : Options} {ok : Document → Prop} (hsource : ∀ {doc}, ok doc → doc.anew.SameSource (session.coloured doc))
    (hfits : ∀ {doc}, ok doc → LevelsFit (session.coloured doc)) :
    session.Refolds options True False (fun _ => True) ok where
  relevels := relevels hlexer
  number_colour := fun _ => number_colour hlexer _ _ _ _
  front := by
    intro doc doc' start limit stop stop' _ halike hlevels hstart hlt hle hle' hstop hstop'
    have hstart' : startsLine doc'.text start = true := by rwa [halike.startsLine_eq (Nat.le_of_lt hlt)]
    have hline := halike.lineOf_eq (Nat.le_of_lt hlt)
    have hdepth := hlevels.number trivial
    have hstands := Stands.ofDepth doc start (doc.level (doc.lineOf start)).number.toInt
    have hstands' := Stands.ofDepth doc' start (doc.level (doc.lineOf start)).number.toInt
    rw [hline] at hstands'
    rw [session_fold_eq hlexer halike.wellFormed hstart (Nat.lt_of_lt_of_le hlt hle) hstop,
      session_fold_eq hlexer halike.wellFormed' hstart' (Nat.lt_of_lt_of_le hlt hle') hstop', hline, hdepth, halike.options]
    exact levelsUpTo_stepsTo (.ofDepth halike (fun l hl => hlevels.levels l (.inl hl)) _) hstands hstands' halike.wellFormed
      halike.wellFormed' _ (Nat.le_of_lt hlt) hle hle'
  split := by
    intro doc hok hreturn hpos hlt hstart
    have hsame := hsource hok
    have hwell := hsame.wellFormed doc.wellFormed_anew
    have hsize : (session.coloured doc).size = doc.size := hsame.size
    have hstart : startsLine (session.coloured doc).text doc.endStyled = true := by rwa [hsame.text]
    have hend : IsBoundary (session.coloured doc).text doc.size := .inr hsize.symm
    obtain ⟨hrelevelled, _, hlevels⟩ := levelsUpTo_resume hwell (by rwa [hsame.text]) (hfits hok) hstart
    have hfront := session_fold_eq_sweepAt hlexer hwell hpos (.inl hstart)
    have hwhole : session.whole doc = storeDepth (sweepAt (session.coloured doc) doc.size) :=
      session_fold_eq_sweepAt hlexer hwell (Nat.zero_lt_of_lt hlt) hend
    rw [← hfront] at hrelevelled hlevels
    rw [hsize, ← hwhole] at hlevels
    generalize session.fold (session.coloured doc) 0 doc.endStyled = front at *
    have hsource := hrelevelled.sameSource
    rw [session_fold_eq hlexer (hsource.wellFormed hwell) (by rwa [hsource.text]) hlt (by rwa [IsBoundary, hsource.text]),
      hsource.lineOf, hsource.options]
    exact hlevels
  number_zero := by
    intro doc hok _
    have hsame := hsource hok
    have hend : IsBoundary (session.coloured doc).text doc.size := .inr hsame.size.symm
    have hnumber := number_session_fold hlexer (hsame.wellFormed doc.wellFormed_anew) hend
    exact hnumber.trans (number_colour hlexer _ _ _ _)

end Highlight.Scss
