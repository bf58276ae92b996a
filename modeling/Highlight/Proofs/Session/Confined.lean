import Highlight.Proofs.Gibiane.Pass
import Highlight.Proofs.Haskell.Resume
import Highlight.Proofs.R.Resume
import Highlight.Proofs.Rust.Resume
import Highlight.Proofs.Scss.Resume
import Highlight.Proofs.Sql.Parts
import Highlight.Proofs.Tcl.Walk

/-!
Colouring a range. It writes nothing outside of the whole lines of the range and leaves no byte of them out, and it
reads no mark there, not even one that it has written itself.
-/

namespace Highlight

open LineIndex

/--
Two documents that differ in the marks from `start` up to `stop` only: in the styles of these bytes, and in the states
and levels of the lines that neither start in front of them nor end behind them.
-/
structure Document.SameOutside (start stop : Nat) (doc doc' : Document) : Prop where
  sameSource : doc.SameSource doc'
  styles : ∀ i : Nat, i < start ∨ stop ≤ i → doc'.styles[i]? = doc.styles[i]?
  lineStates : ∀ l : Nat, doc.lineStart l < start ∨ stop < doc.lineStart (l + 1) → doc'.lineStates[l]? = doc.lineStates[l]?
  levels : ∀ l : Nat, doc.lineStart l < start ∨ stop < doc.lineStart (l + 1) → doc'.levels[l]? = doc.levels[l]?

/--
Colouring `doc` from `start` up to `stop` writes no other marks than these. It gives each of the bytes a style, which
none of these marks has a part in, and doing it again changes nothing.
-/
structure Confined (colour : Document → Document) (start stop : Nat) (doc : Document) : Prop where
  outside : doc.SameOutside start stop (colour doc)
  anew : ∀ doc', doc.SameOutside start stop doc' → ∀ i : Nat, start ≤ i → i < stop → (colour doc').styles[i]? = (colour doc).styles[i]?
  again : colour (colour doc) = colour doc

variable {doc doc' : Document} {start stop : Nat}

namespace Document

theorem WellFormed.lineStart_lt_iff (hdoc : doc.WellFormed) (hstart : startsLine doc.text start = true) {line : Nat} :
    doc.lineStart line < start ↔ line < doc.lineOf start := by
  rw [Document.lineStart, Document.lineOf, hdoc.lines]
  exact LineIndex.lineStart_lt_iff hstart

/--
The lines that lie in the part which a view of a range shows are those that lie in the range.
-/
theorem SameOutside.of_framed {pen : Pen} (hdoc : doc.WellFormed) (hstart : startsLine doc.text start = true)
    (h : pen.Framed (.ofRange doc start stop stop) doc) : doc.SameOutside start stop pen.doc := by
  have hlines : ∀ l : Nat, doc.lineStart l < start ∨ stop < doc.lineStart (l + 1) →
      l < (View.ofRange doc start stop stop).first ∨ (View.ofRange doc start stop stop).last ≤ l := by
    intro l hl
    refine hl.imp (hdoc.lineStart_lt_iff hstart).mp fun hend => Nat.le_of_not_lt fun hlast => Nat.not_le_of_lt hend ?_
    simp only [View.ofRange, beq_iff_eq] at hlast
    split at hlast
    . next heq =>
      rw [heq]
      exact hdoc.lineStart_le_size (l + 1)
    . rw [Document.lineOf, hdoc.lines] at hlast
      rw [Document.lineStart, hdoc.lines]
      exact LineIndex.lineStart_succ_le hlast
  exact ⟨h.sameSource, h.styles, fun l hl => h.lineStates l (hlines l hl), fun l hl => h.levels l (hlines l hl)⟩

theorem SameOutside.styleBefore (h : doc.SameOutside start stop doc') : doc'.styleBefore start = doc.styleBefore start :=
  styleBefore_congr fun i hi => h.styles i (.inl hi)

end Document

section Whole

variable (hdoc : doc.WellFormed) (hstart : startsLine doc.text start = true) (hlt : start < stop) (hstop : IsBoundary doc.text stop)
include hdoc hstart hlt hstop

/--
A pass over whole lines.
-/
theorem Colouring.LawfulPass.confined {σ : Type} {m : Colouring σ} (h : m.LawfulPass) (hgood : m.Good (m.start doc start stop)) :
    Confined (m.colour · start stop) start stop doc where
  outside := by
    obtain ⟨pen, hframed, heq⟩ := h.framed_colour hdoc hstart hlt hstop hgood
    rw [heq]
    exact .of_framed hdoc hstart hframed
  anew := by
    intro doc' houtside i hi hi'
    have hgoes : m.goesOn doc start doc' start :=
      h.goesOn_of_agree hdoc houtside.sameSource (fun i hi => houtside.styles i (.inl hi))
        (fun l hl => houtside.lineStates l (.inl ((hdoc.lineStart_lt_iff hstart).mpr hl)))
        (fun l hl => houtside.levels l (.inl ((hdoc.lineStart_lt_iff hstart).mpr hl)))
    have hclosed : (View.ofRange doc start stop stop).Closed m.loose (Pen.Covering start) := View.closed_covering rfl
    obtain ⟨pen, pen', hpens, hcolour, hcolour', hsegment⟩ :=
      h.colour_over hdoc hstart hlt hstop houtside.sameSource hclosed (Pen.covering_start doc doc' start) hgoes hgood
    show (m.colour doc' start stop).styles[i]? = (m.colour doc start stop).styles[i]?
    rw [hcolour, hcolour']
    exact (hpens 0).styles i hi (Nat.lt_of_lt_of_le hi' hsegment)
  again := (h.colour_again hdoc hstart hlt hstop hgood).1

omit hstart in
theorem Sql.confined_pass (keywords : Keywords) : Confined (Sql.pass keywords · start stop) start stop doc where
  outside := by
    have hframed := framed_pass hdoc (Nat.le_of_lt hlt) hstop keywords
    refine ⟨hframed.sameSource, hframed.styles, ?_, ?_⟩
    . intro l _
      rw [hframed.lineStates]
    . intro l _
      rw [hframed.levels]
  anew := by
    intro doc' houtside i hi hi'
    have hshows := View.shows_ofWhole hdoc houtside.sameSource (Nat.le_trans (Nat.le_of_lt hlt) hstop.le_size)
    exact styles_pass hshows rfl houtside.styleBefore (Nat.le_of_lt hlt) hstop.le_size keywords hi hi'
  again := pass_extend hdoc (Nat.le_of_lt hlt) hstop (Nat.le_refl stop) hstop

end Whole

/--
A session widens a range to whole lines.
-/
theorem Session.Colours.confined {session : Session} {colour : Document → Nat → Nat → Document} (h : session.Colours colour)
    (hdoc : doc.WellFormed) (hlt : start < min stop doc.size)
    (hconfined : Confined (colour · (lineFloor doc.text start) (lineCeil doc.text (min stop doc.size))) (lineFloor doc.text start)
      (lineCeil doc.text (min stop doc.size)) doc) :
    Confined (session.colour · start stop) (lineFloor doc.text start) (lineCeil doc.text (min stop doc.size)) doc := by
  have hcolour : ∀ doc', doc.SameSource doc' →
      session.colour doc' start stop = colour doc' (lineFloor doc.text start) (lineCeil doc.text (min stop doc.size)) := by
    intro doc' hsame
    rw [h.colour_of_lt (hsame.wellFormed hdoc) (by rwa [hsame.size]), hsame.text, hsame.size]
  obtain ⟨houtside, hanew, hagain⟩ := hconfined
  have hself := hcolour doc (.refl doc)
  constructor
  . rwa [hself]
  . intro doc' hdoc' i hi hi'
    rw [hself, hcolour doc' hdoc'.sameSource]
    exact hanew doc' hdoc' i hi hi'
  . rw [hself, hcolour _ houtside.sameSource]
    exact hagain

theorem Colouring.LawfulPass.confined_drives {σ : Type} {m : Colouring σ} (h : m.LawfulPass) {session : Session}
    (hdrives : m.Drives session) (hdoc : doc.WellFormed) (hlt : start < min stop doc.size)
    (hgood : m.Good (m.start doc (lineFloor doc.text start) (lineCeil doc.text (min stop doc.size)))) :
    Confined (session.colour · start stop) (lineFloor doc.text start) (lineCeil doc.text (min stop doc.size)) doc := by
  have hsize : min stop doc.size ≤ doc.text.size := Nat.min_le_right _ _
  have hfloor := lineFloor_le doc.text start
  have hceil := le_lineCeil hsize
  exact Session.Colours.confined hdrives hdoc hlt
    (h.confined hdoc (startsLine_lineFloor doc.text start) (by omega) (isBoundary_lineCeil hsize) hgood)

/--
What the colouring of a language other than SQL is known by.
-/
theorem Session.exists_lawfulPass {language : Language} (hsql : language ≠ .sql) {session : Session}
    (hsession : session.lexer = language.lexer) (hdoc : doc.WellFormed) (hstart : startsLine doc.text start = true) (hlt : start < stop)
    (hstop : IsBoundary doc.text stop) (hstyle : language = .haskell → Haskell.loose (doc.styleBefore start) = true) :
    ∃ (σ : Type) (m : Colouring σ), m.LawfulPass ∧ m.Drives session ∧ m.Good (m.start doc start stop) := by
  -- A pass that need not be interrupted may carry any style over the end of a line.
  cases language with
  | rust =>
    exact ⟨_, Rust.pass False False (fun _ => false) session.keywords, Rust.lawfulPass (fun _ h => absurd h Bool.false_ne_true) _,
      Rust.drives_pass hsession, Rust.good_pass _ hdoc hstart hlt hstop False.elim False.elim⟩
  | haskell =>
    exact ⟨_, Haskell.pass False session.keywords doc.options, Haskell.lawfulPass _ _, Haskell.drives_pass hsession _,
      Haskell.good_pass _ hdoc hstart hlt hstop (hstyle rfl)⟩
  | tcl =>
    exact ⟨_, Tcl.pass False False (fun _ => false) session.keywords doc.options,
      Tcl.lawfulPass (fun _ h => absurd h Bool.false_ne_true) False.elim _ _, Tcl.drives_pass hsession _,
      Tcl.good_pass _ hdoc hstart hlt hstop False.elim False.elim⟩
  | scss =>
    exact ⟨_, Scss.pass False (fun _ => false) session.keywords, Scss.lawfulPass rfl _, Scss.drives_pass hsession,
      Scss.good_pass _ hdoc hstart hlt hstop False.elim False.elim False.elim⟩
  | r =>
    exact ⟨_, R.pass False (fun _ => false) session.keywords, R.lawfulPass (fun _ h => absurd h Bool.false_ne_true) _,
      R.drives_pass hsession, R.good_pass _ hdoc hstart hlt hstop False.elim⟩
  | sql => exact absurd rfl hsql
  | gibiane =>
    exact ⟨_, Gibiane.pass session.keywords, Gibiane.lawfulPass _, Gibiane.drives_pass hsession,
      Gibiane.good_pass _ hdoc hstart hlt hstop⟩

/--
Colouring the lines of a range that holds a byte, in every language. Haskell has to go on in front of them with a style
that it leaves at the end of a line.
-/
theorem Session.confined_colour (language : Language) (session : Session) (hsession : session.lexer = language.lexer)
    (doc : Document) (hdoc : doc.WellFormed) (start stop : Nat) (hlt : start < min stop doc.size)
    (hstyle : language = .haskell → Haskell.loose (doc.styleBefore (doc.lineStart (doc.lineOf start))) = true) :
    Confined (session.colour · start stop) (doc.lineStart (doc.lineOf start)) (lineCeil doc.text (min stop doc.size)) doc := by
  rw [hdoc.lineStart_lineOf] at hstyle ⊢
  have hsize : min stop doc.size ≤ doc.text.size := Nat.min_le_right _ _
  have hfloor := lineFloor_le doc.text start
  have hceil := le_lineCeil hsize
  have hline := startsLine_lineFloor doc.text start
  have hbound := isBoundary_lineCeil hsize
  have hwhole : lineFloor doc.text start < lineCeil doc.text (min stop doc.size) := by omega
  by_cases hsql : language = .sql
  . subst hsql
    exact Session.Colours.confined (Sql.colours_pass hsession) hdoc hlt (Sql.confined_pass hdoc hwhole hbound session.keywords)
  . obtain ⟨σ, m, hlawful, hdrives, hgood⟩ := exists_lawfulPass hsql hsession hdoc hline hwhole hbound hstyle
    exact hlawful.confined_drives hdrives hdoc hlt hgood

/--
The middle line of a comment, of which one byte is asked for.
-/
theorem Session.confined_colour_comment_line :
    let session := Session.ofLexer Language.haskell.lexer
    let doc := session.colour (.fresh "\x7b-\n a\n-\x7d".toUTF8.data .utf8 .empty) 0 3
    4 < min 5 doc.size ∧ Haskell.loose (doc.styleBefore (doc.lineStart (doc.lineOf 4))) = true
      ∧ Confined (session.colour · 4 5) (doc.lineStart (doc.lineOf 4)) (lineCeil doc.text (min 5 doc.size)) doc := by
  intro session doc
  have hdoc : doc.WellFormed := ⟨by decide +kernel, by decide +kernel, by decide +kernel, by decide +kernel⟩
  have hlt : 4 < min 5 doc.size := by decide +kernel
  have hstyle : Haskell.loose (doc.styleBefore (doc.lineStart (doc.lineOf 4))) = true := by decide +kernel
  exact ⟨hlt, hstyle, confined_colour .haskell session rfl doc hdoc 4 5 hlt (fun _ => hstyle)⟩

end Highlight
