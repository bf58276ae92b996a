import Highlight.Proofs.R.Fold
import Highlight.Proofs.Rust.Fold
import Highlight.Proofs.Sql.Fold
import Highlight.Session

/-!
Folding a text in two parts, where the second part is coloured after the first one has been folded.
-/

namespace Highlight

open LineIndex

/--
What a session hands to the fold pass of its lexer, whatever levels there are.
-/
theorem Session.exists_fold_eq (session : Session) {doc : Document} (hdoc : doc.WellFormed) {start stop : Nat}
    (hstart : startsLine doc.text start = true) (hlt : start < stop) (hstop : IsBoundary doc.text stop) :
    ∃ span, doc.wholeLines span = doc.spanOf start stop
      ∧ ∀ doc', doc.Relevelled doc' → session.fold doc' start stop = session.lexer.fold session.keywords span doc' := by
  have hle : stop ≤ doc.size := hstop.le_size
  obtain ⟨span, hspan, hwhole⟩ := hdoc.wholeLines_linesSpan? (show start < min stop doc.size by omega)
  rw [Nat.min_eq_left hle, lineFloor_of_startsLine hstart, lineCeil_of_isBoundary hstop] at hwhole
  refine ⟨span, hwhole, ?_⟩
  rintro doc' ⟨levels, _, rfl⟩
  have hspan' : Document.linesSpan? { doc with levels } start stop = some span := hspan
  rw [Session.fold, Session.run, hspan']

namespace Folding

variable {σ : Type} {m : Folding σ} {session : Session} {doc : Document} {styles : Array Style}
  {lineStates : Array LineState} {start pos stop : Nat}

/--
A session that folds documents with these options the way `m` does.
-/
def Drives (m : Folding σ) (session : Session) (options : Options) : Prop :=
  ∀ {doc span start stop}, doc.options = options → start ≤ stop → doc.wholeLines span = doc.spanOf start stop →
    session.lexer.fold session.keywords span doc = m.fold doc start stop

theorem Drives.fold_eq {options : Options} (h : m.Drives session options) (hoptions : doc.options = options)
    (hdoc : doc.WellFormed)
    (hstart : startsLine doc.text start = true) (hlt : start < stop) (hstop : IsBoundary doc.text stop) :
    session.fold doc start stop = m.fold doc start stop := by
  obtain ⟨span, hwhole, hfold⟩ := session.exists_fold_eq hdoc hstart hlt hstop
  rw [hfold doc (.refl doc)]
  exact h hoptions (Nat.le_of_lt hlt) hwhole

theorem fold_of_le (hle : min stop doc.size ≤ start) : session.fold doc start stop = doc := by
  rw [Session.fold, Session.run, Document.linesSpan?]
  simp only
  rw [if_neg (by omega)]

/--
A session whose fold pass can be interrupted folds the lines in front of a line start before the rest is
coloured.
-/
theorem Lawful.session_fold_eq (h : m.Lawful) (hdrives : m.Drives session doc.options) (hdoc : doc.WellFormed)
    (hpos : startsLine doc.text pos = true) (hstyles : styles.size = doc.styles.size)
    (hstates : lineStates.size = doc.lineStates.size) (hagree : doc.AgreesBelow styles lineStates pos)
    (hfits : m.LevelsFit doc 0 doc.size) :
    session.fold ((session.fold (doc.restyle styles lineStates) 0 pos).restyle doc.styles doc.lineStates) pos doc.size
      = session.fold doc 0 doc.size := by
  have hle : pos ≤ doc.size := le_size_of_startsLine hpos
  by_cases hzero : pos = 0
  . subst hzero
    rw [fold_of_le (Nat.min_le_left _ _)]
    rfl
  . have hfront : session.fold (doc.restyle styles lineStates) 0 pos = m.fold (doc.restyle styles lineStates) 0 pos :=
      hdrives.fold_eq rfl (hdoc.restyle hstyles hstates) startsLine_zero (by omega) (.inl hpos)
    have hwhole : session.fold doc 0 doc.size = m.fold doc 0 doc.size :=
      hdrives.fold_eq rfl hdoc startsLine_zero (by omega) (.inr rfl)
    have hmid := (h.relevelled_fold doc 0 pos).sameSource
    rw [hfront, hwhole, h.fold_restyle hdoc hpos (Nat.zero_le _) hagree]
    by_cases hlast : pos = doc.size
    . rw [fold_of_le (by rw [hmid.size]; omega), hlast]
    . rw [hdrives.fold_eq hmid.options (hmid.wellFormed hdoc) (by rw [hmid.text]; exact hpos) (by omega)
        (.inr (by rw [hmid.text]; rfl)), h.fold_split hdoc hpos (Nat.zero_le _) hle hfits]

end Folding

theorem R.drives_folding {session : Session} (hsession : session.lexer = lexer) (options : Options) :
    (byteFold (.read options)).folding.Drives session options := by
  intro doc span start stop hoptions hle hspan
  subst hoptions
  rw [hsession]
  exact fold_eq hle hspan session.keywords

theorem Rust.drives_folding {session : Session} (hsession : session.lexer = lexer) {options : Options}
    (henabled : (FoldOptions.read options).enabled = true) :
    (byteFold (.read options)).folding.Drives session options := by
  intro doc span start stop hoptions hle hspan
  subst hoptions
  rw [hsession]
  exact fold_eq hle hspan henabled session.keywords

theorem Rust.session_fold_of_disabled {session : Session} (hsession : session.lexer = lexer) (doc : Document)
    (hdisabled : (FoldOptions.read doc.options).enabled = false) (start stop : Nat) : session.fold doc start stop = doc := by
  unfold Session.fold Session.run
  split
  . rw [hsession]
    exact fold_of_disabled hdisabled session.keywords _
  . rfl

theorem Sql.drives_folding {session : Session} (hsession : session.lexer = lexer) (options : Options) :
    (folding (.read options)).Drives session options := by
  intro doc span start stop hoptions hle hspan
  subst hoptions
  rw [hsession]
  exact fold_eq hle hspan session.keywords

namespace Session

/--
Folding the lines in front of a line start while the bytes and lines from there on still have other styles and
line states, and folding the rest once they have their own, is folding the document at once. The depths that
this stores have to fit into level words.
-/
theorem fold_before_styles_eq_fold (session : Session) (doc : Document) (hdoc : doc.WellFormed)
    (hsession : session.lexer = Rust.lexer ∧ Rust.LevelsFit doc ∨ session.lexer = R.lexer ∧ R.LevelsFit doc
      ∨ session.lexer = Sql.lexer ∧ Sql.LevelsFit doc)
    (pos : Nat) (hpos : startsLine doc.text pos = true) (styles : Array Style) (lineStates : Array LineState)
    (hstyles : styles.size = doc.styles.size) (hstates : lineStates.size = doc.lineStates.size)
    (hagree : doc.AgreesBelow styles lineStates pos) :
    session.fold ((session.fold (doc.restyle styles lineStates) 0 pos).restyle doc.styles doc.lineStates) pos doc.size
      = session.fold doc 0 doc.size := by
  rcases hsession with ⟨hlexer, hfits⟩ | ⟨hlexer, hfits⟩ | ⟨hlexer, hfits⟩
  . cases henabled : (Rust.FoldOptions.read doc.options).enabled with
    | true =>
      exact (Rust.lawful_byteFold _).folding.session_fold_eq (Rust.drives_folding hlexer henabled) hdoc hpos hstyles
        hstates hagree (hfits henabled)
    | false =>
      rw [Rust.session_fold_of_disabled hlexer doc henabled,
        Rust.session_fold_of_disabled hlexer (doc.restyle styles lineStates) henabled]
      exact Rust.session_fold_of_disabled hlexer doc henabled pos doc.size
  . exact (R.lawful_byteFold _).folding.session_fold_eq (R.drives_folding hlexer _) hdoc hpos hstyles hstates hagree hfits
  . exact (Sql.lawful_folding _).session_fold_eq (Sql.drives_folding hlexer _) hdoc hpos hstyles hstates hagree hfits

/--
A block and a comment that are open where the first part ends, before the bytes behind it are coloured.
-/
theorem fold_before_styles_eq_fold_open_comment :
    let session := Session.ofLexer Rust.lexer
    let options := .ofList [("fold", "1"), ("fold.comment", "1")]
    let doc := { Document.fresh "\x7b/*\n*/\x7d\n".toUTF8.data .singleByte options with styles := #[13, 1, 1, 1, 1, 1, 13, 0] }
    session.fold ((session.fold (doc.restyle #[13, 1, 1, 1, 0, 0, 0, 0] #[0, 7, 7]) 0 4).restyle doc.styles doc.lineStates)
      4 doc.size = session.fold doc 0 doc.size := by
  intro session options doc
  have hdoc : doc.WellFormed := ⟨rfl, by decide +kernel, Array.size_replicate, Array.size_replicate⟩
  have hfits : Rust.LevelsFit doc :=
    fun _ => Folding.levelsFit_of_holdsAlong (show holdsAlong _ _ _ 9 _ = true by decide +kernel)
  exact fold_before_styles_eq_fold session doc hdoc (.inl ⟨rfl, hfits⟩) 4 (by decide +kernel) _ _ (by decide +kernel)
    (by decide +kernel) ⟨by decide +kernel, by decide +kernel⟩

end Session

end Highlight
