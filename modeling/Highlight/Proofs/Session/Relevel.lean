import Highlight.Proofs.Gibiane.Front
import Highlight.Proofs.Scss.Front
import Highlight.Proofs.Session.Restyle
import Highlight.Proofs.Sql.Front

/-!
Fold levels after edits, in every language that folds. The lines that end, which in Rust all lines with a byte do, have
the levels of a text that is styled from scratch. An edit can leave its last line behind, of which no pass has come to
the end.
-/

namespace Highlight

open LineIndex

namespace Language

/--
Sessions that fold, with options and keywords that do not take a pass over the end of a line: no marker of Rust goes on
behind one, and no keyword of Gibiane fills what is looked up of a token.
-/
def SetToFold (language : Language) (session : Session) (options : Options) : Prop :=
  match language with
  | .rust => (Rust.FoldOptions.read options).enabled = true ∧ (Rust.FoldOptions.read options).MarkersInLine
  | .gibiane =>
    (∀ list ∈ session.keywords, ∃ text, list = .ofText text)
      ∧ ∀ list ∈ session.keywords, ∀ word ∈ list.words, (Utf8.encode word).length < 98
  | .scss | .r | .sql => True
  | .haskell | .tcl => False

/--
Documents that a session can style and fold behind their valid styles. The depths of the lines fit into levels, and what
the pass from there on looks back at is what one over all of the text finds: the end of a comment of SQL, and in Gibiane
the first word of the line above and the depth of the first line.
-/
def FoldsOn (language : Language) (session : Session) (doc : Document) : Prop :=
  let coloured := session.coloured doc
  match language with
  | .rust => Rust.LevelsFit coloured ∧ (1 <<< 32 ≤ doc.size → Rust.NestingFits session.keywords doc.anew)
  | .scss => Scss.LevelsFit coloured
  | .r => R.LevelsFit coloured
  | .sql =>
    Sql.LevelsFit coloured
      ∧ (0 < doc.endStyled → doc.endStyled < doc.size → ¬ Sql.ClosesBehindKeyword coloured doc.endStyled)
  | .gibiane =>
    Gibiane.LevelsFit coloured
      ∧ (0 < doc.endStyled → doc.endStyled < doc.size → Gibiane.FindsFirstWord coloured doc.endStyled)
      ∧ ((session.whole doc).level 0).number = Level.base.number
  | .haskell | .tcl => True

end Language

namespace Session

variable {session : Session} {language : Language} {options : Options} {doc : Document}

/--
Documents with these options, of which a session colours and folds on. R looks at bytes, so that it does not mind lead bytes.
-/
structure Foldable (language : Language) (session : Session) (options : Options) (doc : Document) : Prop where
  options : doc.options = options
  encoding : language = .r ∨ ∀ page, doc.encoding ≠ .doubleByte page
  foldsOn : language.FoldsOn session doc

theorem Foldable.hasNoLeadByte (h : Foldable language session options doc) (hlanguage : language ≠ .r) (b : UInt8) :
    doc.encoding.isLeadByte b = false := by
  have hsingle := h.encoding.resolve_left hlanguage
  cases hencoding : doc.encoding with
  | singleByte => rfl
  | utf8 => rfl
  | doubleByte page => exact absurd hencoding (hsingle page)

/--
A session that goes on where the valid styles of its documents end. In Rust it closes the last line of a text as well.
-/
def Refoldable (language : Language) (session : Session) (options : Options) : Prop :=
  ∃ storing closing anchored, (language = .rust → closing) ∧ session.Resumes storing (Foldable language session options)
    ∧ session.Refolds options storing closing anchored (Foldable language session options)

end Session

section Languages

open Session

variable {session : Session} {options : Options} {storing : Prop} {language : Language} {doc : Document}

theorem Session.Resumes.options_coloured (hr : session.Resumes storing (Foldable language session options))
    (hok : Foldable language session options doc) : (session.coloured doc).options = options :=
  (hr.sameSource hok).options.trans hok.options

theorem R.refoldable (hlexer : session.lexer = lexer) : Refoldable .r session options := by
  have hr : session.Resumes False (Foldable .r session options) :=
    ((local_colouring session.keywords).resumes (drives_colouring hlexer)).mono
      fun doc _ hpos => good_start session.keywords doc.wellFormed_anew hpos
  refine ⟨_, _, _, nofun, hr, (frontal_byteFold _).folding.refolds (drives_folding hlexer options)
    (.of_lexer hlexer (relevelled_fold session.keywords)) (fun hok => ⟨hr.sameSource hok, hok.options⟩) ?_⟩
  intro doc hok
  have hfits : LevelsFit (session.coloured doc) := hok.foldsOn
  rwa [LevelsFit, hr.options_coloured hok] at hfits

theorem Rust.refoldable (hlexer : session.lexer = lexer) (henabled : (FoldOptions.read options).enabled = true)
    (hmarkers : (FoldOptions.read options).MarkersInLine) : Refoldable .rust session options := by
  have hr : session.Resumes True (Foldable .rust session options) := by
    refine ((local_colouring session.keywords).resumes (drives_colouring hlexer)).mono fun doc hok hpos => ?_
    have hsingle := hok.encoding.resolve_left nofun
    exact good_start session.keywords doc.wellFormed_anew hpos hsingle
      (nestingFits_of_imp doc.wellFormed_anew hsingle hok.foldsOn.2)
  refine ⟨_, _, _, fun _ => rfl, hr, (frontal_byteFold hmarkers).folding.refolds (drives_folding hlexer henabled)
    (.of_lexer hlexer (relevelled_fold session.keywords)) (fun hok => ⟨hr.sameSource hok, hok.options⟩) ?_⟩
  intro doc hok
  have hfits : LevelsFit (session.coloured doc) := hok.foldsOn.1
  rw [LevelsFit, hr.options_coloured hok] at hfits
  exact hfits henabled

theorem Scss.refoldable (hlexer : session.lexer = lexer) : Refoldable .scss session options := by
  have hr : session.Resumes True (Foldable .scss session options) :=
    ((local_colouring session.keywords).resumes (drives_colouring hlexer)).mono fun doc hok hpos =>
      good_start_ofText session.keywords doc.wellFormed_anew hpos (hok.encoding.resolve_left nofun)
  exact ⟨_, _, _, nofun, hr, refolds hlexer hr.sameSource fun hok => hok.foldsOn⟩

theorem Sql.refoldable (hlexer : session.lexer = lexer) : Refoldable .sql session options := by
  have hr : session.Resumes False (Foldable .sql session options) :=
    (resumes hlexer).mono fun doc hok => ⟨hok.hasNoLeadByte (by decide), hok.foldsOn.2⟩
  refine ⟨_, _, _, nofun, hr, (frontal_folding _).refolds (drives_folding hlexer options)
    (.of_lexer hlexer (relevelled_fold session.keywords)) (fun hok => ⟨hr.sameSource hok, hok.options⟩) ?_⟩
  intro doc hok
  have hfits : LevelsFit (session.coloured doc) := hok.foldsOn.1
  rwa [LevelsFit, hr.options_coloured hok] at hfits

theorem Gibiane.refoldable (hlexer : session.lexer = lexer) (hkeywords : Bounded session.keywords) :
    Refoldable .gibiane session options := by
  have hr : session.Resumes False (Foldable .gibiane session options) :=
    ((local_colouring hkeywords).resumes (drives_colouring hlexer)).mono fun doc hok hpos =>
      good_start session.keywords doc.wellFormed_anew hpos (hok.encoding.resolve_left nofun)
  refine ⟨_, _, _, nofun, hr, refolds hlexer hr.sameSource (fun hok => hok.foldsOn.1) (fun hok => hok.foldsOn.2.1) ?_⟩
  intro doc hok
  rw [level_anew]
  exact hok.foldsOn.2.2

/--
Every language that folds goes on where the valid styles end.
-/
theorem Session.refoldable (hsession : session.lexer = language.lexer) (hfolds : language.SetToFold session options) :
    Refoldable language session options := by
  cases language with
  | rust => exact Rust.refoldable hsession hfolds.1 hfolds.2
  | haskell => exact hfolds.elim
  | tcl => exact hfolds.elim
  | scss => exact Scss.refoldable hsession
  | gibiane => exact Gibiane.refoldable hsession (Gibiane.bounded_of_ofText hfolds.1 hfolds.2)
  | r => exact R.refoldable hsession
  | sql => exact Sql.refoldable hsession

end Languages

/--
Whatever edits and requests for styles there are, in whatever order, a text that is styled to its end has the levels of
styling it from scratch, in each line that ends, and in Rust in each line with a byte.
-/
theorem Session.relevel_eq_level (language : Language) (session : Session) (hsession : session.lexer = language.lexer)
    (text : Array UInt8) (htext : 0x0D ∉ text) (encoding : Encoding)
    (hencoding : language = .r ∨ encoding = .singleByte ∨ encoding = .utf8) (options : Options)
    (hfolds : language.SetToFold session options) (requests : List Request)
    (hreturn : ∀ request ∈ requests, request.hasNoReturn = true)
    (hserved : ∀ served, served <+: requests → language.FoldsOn session (session.serve (.fresh text encoding options) served))
    (line : Nat) :
    let doc := session.serve (.fresh text encoding options) requests
    let whole := session.style (.fresh doc.text encoding options) 0 doc.size
    line + 1 < doc.lineCount ∨ language = .rust ∧ doc.lineStart line < doc.size →
      (session.ensureStyled doc doc.size).level line = whole.level line := by
  intro doc whole hline
  obtain ⟨storing, closing, anchored, hclosing, hr, hf⟩ := refoldable hsession hfolds
  have hok : ∀ served, served <+: requests → (session.serve (.fresh text encoding options) served).encoding = encoding →
      (session.serve (.fresh text encoding options) served).options = options →
      Foldable language session options (session.serve (.fresh text encoding options) served) := by
    intro served hpart hkept hoptions
    refine ⟨hoptions, hencoding.imp_right fun hsingle page => ?_, hserved served hpart⟩
    rw [hkept]
    rcases hsingle with rfl | rfl
    . nofun
    . nofun
  obtain ⟨_, hkept, hoptions⟩ := hr.valid_serve hf.relevels htext encoding options hreturn hok
  have hwhole : whole = session.whole doc := by
    rw [Session.whole, Document.anew, hkept, hoptions]
  rw [hwhole]
  exact hf.level_serve hr htext encoding hreturn hok (hline.imp_right fun h => ⟨hclosing h.1, h.2⟩)

/--
A comment of Rust that an edit opens behind valid styles, and a block that another one closes. The last line ends with
the text.
-/
theorem Session.relevel_eq_level_open_comment :
    let session := Session.ofLexer Language.rust.lexer
    let options : Options := .ofList [("fold", "1"), ("fold.comment", "1")]
    let text := "a\x7b\nb\n*/c".toUTF8.data
    let requests : List Request := [.ensureStyled 8, .insert 3 "/*\n".toUTF8.data, .ensureStyled 5, .delete 1 2]
    let doc := session.serve (.fresh text .singleByte options) requests
    let whole := session.style (.fresh doc.text .singleByte options) 0 doc.size
    ∀ line, line < doc.lineCount → (session.ensureStyled doc doc.size).level line = whole.level line := by
  intro session options text requests doc whole line hline
  have hserved : ∀ n, n < 5 →
      let served := session.serve (.fresh text .singleByte options) (requests.take n)
      let coloured := session.coloured served
      let folding := (Rust.byteFold (.read coloured.options)).folding
      served.size < 1 <<< 32 ∧ holdsAlong (folding.fits coloured.size) (folding.more coloured.size) (folding.step coloured.size) 20
        (folding.start coloured 0) = true := by
    decide +kernel
  have hclosed : ∀ line, line < doc.lineCount → line + 1 < doc.lineCount ∨ Language.rust = .rust ∧ doc.lineStart line < doc.size := by
    decide +kernel
  refine relevel_eq_level .rust session rfl text (by decide +kernel) .singleByte (.inr (.inl rfl)) options
    ⟨by decide +kernel, by decide +kernel⟩ requests (by decide +kernel) ?_ line (hclosed line hline)
  intro served hpart
  have hlength : served.length < 5 := Nat.lt_succ_of_le hpart.length_le
  rw [List.prefix_iff_eq_take.mp hpart]
  obtain ⟨hsize, hfits⟩ := hserved served.length hlength
  exact ⟨fun _ => Folding.levelsFit_of_holdsAlong hfits, fun hlarge => absurd hlarge (Nat.not_le_of_lt hsize)⟩

/--
In R, an edit leaves the level of a line that ends with the text as it was, in front of a line that is gone.
-/
theorem Session.level_ne_level_last_line :
    let session := Session.ofLexer Language.r.lexer
    let options : Options := .ofList [("fold", "1")]
    let text := "a\n\x7b\nb".toUTF8.data
    let requests : List Request := [.ensureStyled 5, .delete 3 5]
    let doc := session.serve (.fresh text .singleByte options) requests
    doc.text = "a\n\x7b".toUTF8.data
      ∧ (session.ensureStyled doc doc.size).levels = #[67109888, 67183616]
      ∧ (session.style (.fresh doc.text .singleByte options) 0 doc.size).levels = #[67109888, 1024] := by
  decide +kernel

end Highlight
