import Highlight.Proofs.Session.Folding
import Highlight.Proofs.Session.History

/-!
Fold levels after edits. Where folding goes on behind a line start from the levels in front of it, the levels of the
lines in front of the valid styles are those of styling all of the text from scratch, whatever has been asked of the
session. Lines that no pass has come to the end of keep what there was.
-/

namespace Highlight

open LineIndex

namespace Session

variable {session : Session} {options : Options} {storing closing : Prop} {anchored : Nat → Prop} {ok : Document → Prop}
  {doc doc' : Document} {front limit stop : Nat}

/--
What styling all of a text leaves if nothing has been known of it.
-/
def whole (session : Session) (doc : Document) : Document :=
  session.style doc.anew 0 doc.size

/--
What makes the folding of a session one that goes on behind the valid styles of documents with these options that are
`ok`. A pass starts with the levels of the lines above, and, if its line is `anchored`, with the depth of its level.
-/
structure Refolds (session : Session) (options : Options) (storing closing : Prop) (anchored : Nat → Prop) (ok : Document → Prop) :
    Prop where
  relevels : session.Relevels
  number_colour : ∀ {doc start stop line}, anchored line → ((session.colour doc start stop).level line).number = (doc.level line).number
  front : ∀ {doc doc' start limit stop stop'}, doc.options = options → doc.AlikeUpTo storing limit doc' →
    doc.LevelsUpTo closing anchored start doc' → startsLine doc.text start = true → start < limit → limit ≤ stop → limit ≤ stop' →
    IsBoundary doc.text stop → IsBoundary doc'.text stop' →
    (session.fold doc start stop).LevelsUpTo closing anchored limit (session.fold doc' start stop')
  split : ∀ {doc}, ok doc → 0x0D ∉ doc.text → 0 < doc.endStyled → doc.endStyled < doc.size → startsLine doc.text doc.endStyled = true →
    (session.whole doc).LevelsUpTo closing anchored doc.size
      (session.fold (session.fold (session.coloured doc) 0 doc.endStyled) doc.endStyled doc.size)
  number_zero : ∀ {doc}, ok doc → anchored 0 → ((session.whole doc).level 0).number = (doc.anew.level 0).number

/--
A document in which the levels of the valid lines are those of a pass from scratch over all of the text.
-/
def Levelled (session : Session) (closing : Prop) (anchored : Nat → Prop) (doc : Document) : Prop :=
  (session.whole doc).LevelsUpTo closing anchored doc.endStyled doc

theorem whole_setEndStyled (session : Session) (doc : Document) (pos : Nat) : session.whole (doc.setEndStyled pos) = session.whole doc :=
  rfl

theorem whole_eq (h : doc.SameSource doc') : session.whole doc' = session.whole doc := by
  rw [whole, whole, h.anew, h.size]

theorem level_anew (doc : Document) (line : Nat) : doc.anew.level line = Level.base := by
  show ((Array.replicate _ Level.base)[line]?).getD Level.base = Level.base
  rw [Array.getElem?_replicate]
  split
  . rfl
  . rfl

/--
A session that colours without writing levels.
-/
theorem number_colour (hlevels : ∀ span doc, (session.lexer.colour session.keywords span doc).levels = doc.levels) (doc : Document)
    (start stop line : Nat) : ((session.colour doc start stop).level line).number = (doc.level line).number := by
  unfold Session.colour Session.run
  split
  . rw [Document.level, Document.level, hlevels]
  . rfl

theorem relevelled_whole (hfold : session.Relevels) (doc : Document) : (session.coloured doc).Relevelled (session.whole doc) :=
  relevelled_fold hfold _ _ _

/--
Where folding in two parts, on styles that both have, is folding at once, a pass goes on behind the folded front.
-/
theorem fold_fold_eq_whole (hfold : session.Relevels) (hsame : doc.anew.SameSource (session.coloured doc)) {pos : Nat}
    (hsplit : let coloured := session.coloured doc
      session.fold ((session.fold (coloured.restyle coloured.styles coloured.lineStates) 0 pos).restyle coloured.styles coloured.lineStates)
        pos coloured.size = session.fold coloured 0 coloured.size) :
    session.fold (session.fold (session.coloured doc) 0 pos) pos doc.size = session.whole doc := by
  have hfront := (relevelled_fold hfold (session.coloured doc) 0 pos).restyle_self
  have hwhole := (congrArg (session.fold · pos (session.coloured doc).size) hfront).symm.trans hsplit
  rwa [hsame.size] at hwhole

namespace Refolds

section Depth

variable (hf : session.Refolds options storing closing anchored ok)
include hf

theorem number_coloured (hanchored : anchored 0) : ((session.coloured doc).level 0).number = Level.base.number := by
  rw [coloured, hf.number_colour hanchored, level_anew]

theorem number_whole (hok : ok doc) (hanchored : anchored 0) : ((session.whole doc).level 0).number = Level.base.number := by
  rw [hf.number_zero hok hanchored, level_anew]

end Depth

variable (hr : session.Resumes storing ok) (hf : session.Refolds options storing closing anchored ok)
include hr hf

theorem wellFormed_whole (hok : ok doc) : (session.whole doc).WellFormed :=
  (relevelled_whole hf.relevels doc).sameSource.wellFormed (hr.wellFormed_coloured hok)

/--
Nothing of a text that is not styled yet is taken for valid.
-/
theorem levelled_fresh {text : Array UInt8} {encoding : Encoding} (hok : ok (.fresh text encoding options)) :
    session.Levelled closing anchored (.fresh text encoding options) := by
  refine .zero (hf.wellFormed_whole hr hok) fun hanchored => ?_
  rw [hf.number_whole hok hanchored]
  exact congrArg Level.number (level_anew (.fresh text encoding options) 0)

/--
An edit takes back what is behind it, and the levels in front of it do not depend on it.
-/
theorem levelled_edited (hok : ok doc) (hok' : ok doc') (hoptions : doc.options = options) (hvalid : session.Valid storing doc)
    (hlevelled : session.Levelled closing anchored doc) (hedited : doc.Edited doc' front) :
    session.Levelled closing anchored doc' := by
  obtain ⟨hstart, hedit, hagree⟩ := hr.front_edited hok hok' hvalid hedited
  have hle : doc'.endStyled ≤ doc.endStyled := hedited.endStyled ▸ Nat.min_le_left _ _
  have hlefront : doc'.endStyled ≤ front := hedited.endStyled ▸ Nat.min_le_right _ _
  have hsource := hr.sameSource hok
  have hsource' := hr.sameSource hok'
  have hwhole : (session.whole doc).LevelsUpTo closing anchored doc'.endStyled (session.whole doc') := by
    rcases Nat.eq_zero_or_pos doc'.endStyled with hzero | hpos
    . rw [hzero]
      refine .zero (hf.wellFormed_whole hr hok) fun hanchored => ?_
      rw [hf.number_whole hok hanchored, hf.number_whole hok' hanchored]
    . have hcoloured : (session.coloured doc).LevelsUpTo closing anchored 0 (session.coloured doc') :=
        .zero hagree.wellFormed fun hanchored => by rw [hf.number_coloured hanchored, hf.number_coloured hanchored]
      exact hf.front (hsource.options.trans hoptions) hagree hcoloured startsLine_zero hpos (le_size_of_startsLine hstart)
        (le_size_of_startsLine ((hedit.startsLine_eq (Nat.le_refl _)).trans hstart)) (.inr hsource.size.symm) (.inr hsource'.size.symm)
  have hlevels : doc.LevelsUpTo closing anchored doc'.endStyled doc' := by
    have hline := hvalid.wellFormed'.lineOf_mono hlefront
    refine ⟨fun l hl => hedited.levels l ?_, fun _ => ?_⟩
    . rw [hvalid.wellFormed'.closed_iff hstart] at hl
      omega
    . rw [Document.level, Document.level, hedited.levels _ hline]
  have halike := hagree.relevelled (relevelled_whole hf.relevels doc) (relevelled_whole hf.relevels doc')
  have hbefore := (hvalid.restrict hle (by rw [hsource.text]; exact hstart)).relevelled (relevelled_whole hf.relevels doc) (.refl doc)
  have hvalidLevels := hlevelled.restrict (hf.wellFormed_whole hr hok) hle
  exact (hwhole.symm halike).trans halike.symm (hvalidLevels.trans hbefore hlevels)

/--
A pass over the rest of a text goes on from the levels of a pass over all of it.
-/
theorem exists_rest (hok : ok doc) (hoptions : doc.options = options) (hvalid : session.Valid storing doc)
    (hlt : doc.endStyled < doc.size) :
    ∃ part, (session.coloured doc).Relevelled part ∧ (session.whole doc).LevelsUpTo closing anchored doc.endStyled part
      ∧ (session.whole doc).LevelsUpTo closing anchored doc.size (session.fold part doc.endStyled doc.size) := by
  have hwell := hr.wellFormed_coloured hok
  have hsource := hr.sameSource hok
  have hstart := (hr.isBoundary_endStyled hok hvalid).startsLine hlt
  rcases Nat.eq_zero_or_pos doc.endStyled with hzero | hpos
  . rw [hzero]
    refine ⟨session.coloured doc, .refl _, .zero (hf.wellFormed_whole hr hok) fun hanchored => ?_, .refl _ _ _ _⟩
    rw [hf.number_whole hok hanchored, hf.number_coloured hanchored]
  . refine ⟨session.fold (session.coloured doc) 0 doc.endStyled, relevelled_fold hf.relevels _ _ _, ?_,
      hf.split hok hvalid.not_mem' hpos hlt hstart⟩
    have hsame : (session.coloured doc).AlikeUpTo storing doc.endStyled (session.coloured doc) :=
      .refl hwell hvalid.not_mem hvalid.isBoundary
    exact hf.front (hsource.options.trans hoptions) hsame (.refl _ _ _ _) startsLine_zero hpos (Nat.le_of_lt hlt) (Nat.le_refl _)
      (.inr hsource.size.symm) hvalid.isBoundary

/--
Behind a request for styles, the levels of all lines up to its target are valid.
-/
theorem levelled_ensureStyled (hok : ok doc) (hoptions : doc.options = options) (hvalid : session.Valid storing doc)
    (hlevelled : session.Levelled closing anchored doc) (target : Nat) :
    session.Levelled closing anchored (session.ensureStyled doc target) := by
  rcases session.ensureStyled_cases hvalid.wellFormed' (hr.isBoundary_endStyled hok hvalid) target with
    ⟨_, heq⟩ | ⟨stop, hlt, _, hstop, heq⟩
  . rwa [heq]
  . obtain ⟨hsame, _, _, hlevels⟩ := hr.goOn hok hvalid hlt hstop
    have hle := hstop.le_size
    have hsource := hr.sameSource hok
    have hstart := (hr.isBoundary_endStyled hok hvalid).startsLine (Nat.lt_of_lt_of_le hlt hle)
    have hcolour := hr.alikeUpTo_colour hok hvalid hlt hstop
    obtain ⟨part, hpart, hfront, hrest⟩ := hf.exists_rest hr hok hoptions hvalid (Nat.lt_of_lt_of_le hlt hle)
    -- The levels in front are those of `part`, from which the rest of the text is folded as all of it is.
    have hstarts : part.LevelsUpTo closing anchored doc.endStyled (session.colour doc doc.endStyled stop) := by
      have hsame : (session.coloured doc).AlikeUpTo storing doc.endStyled (session.coloured doc) :=
        .refl hcolour.wellFormed hvalid.not_mem hvalid.isBoundary
      have hwhole := hsame.relevelled (relevelled_whole hf.relevels doc) hpart
      have hdoc := hvalid.relevelled (relevelled_whole hf.relevels doc) (.refl doc)
      have hcoloured : doc.LevelsUpTo closing anchored doc.endStyled (session.colour doc doc.endStyled stop) := by
        refine ⟨fun l hl => hlevels l ?_, fun hanchored => hf.number_colour hanchored⟩
        rwa [hvalid.wellFormed'.closed_iff hstart] at hl
      exact (hfront.symm hwhole).trans hwhole.symm (hlevelled.trans hdoc hcoloured)
    have hfolded := hf.front (by rw [hpart.sameSource.options, hsource.options]; exact hoptions) (hcolour.relevelled hpart (.refl _))
      hstarts (by rw [hpart.sameSource.text, hsource.text]; exact hstart) hlt hle (Nat.le_refl stop)
      (.inr (by rw [hpart.sameSource.text, hsource.text]; rfl)) (by rwa [IsBoundary, hsame.text])
    have hwhole : (session.whole doc).AlikeUpTo storing stop (session.fold part doc.endStyled doc.size) :=
      (Document.AlikeUpTo.refl hcolour.wellFormed hvalid.not_mem hcolour.isBoundary).relevelled (relevelled_whole hf.relevels doc)
        (hpart.trans (relevelled_fold hf.relevels _ _ _))
    have hlevelled' := (hrest.restrict (hf.wellFormed_whole hr hok) hle).trans hwhole hfolded
    have hstyle := hr.sameSource_style hok hvalid hf.relevels hlt hstop
    rw [heq, Levelled, hstyle.endStyled_set hle, whole_setEndStyled, whole_eq hstyle]
    exact ⟨hlevelled'.levels, hlevelled'.number⟩

/--
Every request keeps the levels of the valid lines.
-/
theorem levelled_apply {request : Request} (hreturn : request.hasNoReturn = true) (hok : ok doc)
    (hok' : ok (request.apply session doc)) (hoptions : doc.options = options) (hvalid : session.Valid storing doc)
    (hlevelled : session.Levelled closing anchored doc) : session.Levelled closing anchored (request.apply session doc) := by
  cases request with
  | insert pos bytes =>
    have hbytes : 0x0D ∉ bytes := by simpa [Request.hasNoReturn] using hreturn
    obtain ⟨front, hedited⟩ := Document.edited_insert hvalid.wellFormed' hvalid.not_mem' hbytes pos
    exact hf.levelled_edited hr hok hok' hoptions hvalid hlevelled hedited
  | delete start stop =>
    rcases Document.edited_delete hvalid.wellFormed' hvalid.not_mem' start stop with heq | ⟨front, hedited⟩
    . show session.Levelled closing anchored (doc.delete start stop)
      rwa [heq]
    . exact hf.levelled_edited hr hok hok' hoptions hvalid hlevelled hedited
  | ensureStyled target => exact hf.levelled_ensureStyled hr hok hoptions hvalid hlevelled target

/--
A document that is styled to its end has the levels of a text that is styled from scratch, but for a last line that no
pass has closed.
-/
theorem level_ensureStyled (hok : ok doc) (hoptions : doc.options = options) (hvalid : session.Valid storing doc)
    (hlevelled : session.Levelled closing anchored doc) {line : Nat}
    (hline : line + 1 < doc.lineCount ∨ closing ∧ doc.lineStart line < doc.size) :
    (session.ensureStyled doc doc.size).level line = (session.whole doc).level line := by
  have hwell := hvalid.wellFormed'
  obtain ⟨_, hanew, hle⟩ := hr.valid_ensureStyled hok hvalid hf.relevels doc.size
  have hlevelled := hf.levelled_ensureStyled hr hok hoptions hvalid hlevelled doc.size
  have hsize := Document.size_of_anew hanew
  have hwhole : session.whole (session.ensureStyled doc doc.size) = session.whole doc := by
    rw [whole, whole, hanew, hsize]
  have hsource := (hr.sameSource hok).trans (relevelled_whole hf.relevels doc).sameSource
  have hlineOf : ∀ pos, (session.whole doc).lineOf pos = doc.lineOf pos := by
    intro pos
    rw [hsource.lineOf, hwell.lineOf_anew]
  rw [Levelled, hwhole] at hlevelled
  rw [Nat.min_self] at hle
  rw [Document.level, Document.level, (hlevelled.restrict (hf.wellFormed_whole hr hok) hle).levels line]
  rw [Document.Closed, Document.linesTo, hlineOf, hlineOf]
  refine hline.imp (fun hlt => ?_) fun hlt => ⟨hlt.1, hwell.lt_linesTo_of_lineStart_lt hlt.2 (Nat.le_refl _)⟩
  rw [hwell.lineCount_eq] at hlt
  omega

/--
Whatever has been asked of a session, the levels of a text that it styles to its end are those of styling the text from
scratch.
-/
theorem level_serve {text : Array UInt8} (hreturn : 0x0D ∉ text) (encoding : Encoding) {requests : List Request}
    (hreturns : ∀ request ∈ requests, request.hasNoReturn = true)
    (hok : ∀ served, served <+: requests → (session.serve (.fresh text encoding options) served).encoding = encoding →
      (session.serve (.fresh text encoding options) served).options = options →
      ok (session.serve (.fresh text encoding options) served)) {line : Nat} :
    let doc := session.serve (.fresh text encoding options) requests
    line + 1 < doc.lineCount ∨ closing ∧ doc.lineStart line < doc.size →
      (session.ensureStyled doc doc.size).level line = (session.whole doc).level line := by
  have hvalid : ∀ served, served <+: requests → ok (session.serve (.fresh text encoding options) served)
      ∧ session.Valid storing (session.serve (.fresh text encoding options) served)
      ∧ (session.serve (.fresh text encoding options) served).options = options := by
    intro served hpart
    obtain ⟨hvalid, hencoding, hoptions⟩ := hr.valid_serve hf.relevels hreturn encoding options
      (fun request hmem => hreturns request (hpart.subset hmem))
      (fun served' hpart' => hok served' (hpart'.trans hpart))
    exact ⟨hok served hpart hencoding hoptions, hvalid, hoptions⟩
  have hlevelled : session.Levelled closing anchored (session.serve (.fresh text encoding options) requests) := by
    refine serve_induction (hf.levelled_fresh hr (hvalid [] List.nil_prefix).1) ?_
    intro served request hpart hlevelled
    obtain ⟨hok, hvalid₁, hoptions⟩ := hvalid served ((List.prefix_append served [request]).trans hpart)
    have hok' := (hvalid (served ++ [request]) hpart).1
    rw [serve_append] at hok' ⊢
    exact hf.levelled_apply hr (hreturns request (hpart.subset (List.mem_append_right served List.mem_cons_self))) hok hok' hoptions
      hvalid₁ hlevelled
  obtain ⟨hok, hvalid, hoptions⟩ := hvalid requests (List.prefix_refl requests)
  intro doc hline
  exact hf.level_ensureStyled hr hok hoptions hvalid hlevelled hline

end Refolds

end Session

namespace Folding

variable {σ : Type} {m : Folding σ} {rel : Nat → σ → σ → Prop} {session : Session} {options : Options} {storing closing : Prop}
  {ok : Document → Prop}

/--
A session whose folding goes by nothing behind a limit, and goes on at a line start from the levels in front of it.
-/
theorem Frontal.refolds (h : m.Frontal storing closing rel) (hdrives : m.Drives session options) (hfold : session.Relevels)
    (hsource : ∀ {doc}, ok doc → doc.anew.SameSource (session.coloured doc) ∧ doc.options = options)
    (hfits : ∀ {doc}, ok doc → m.LevelsFit (session.coloured doc) 0 (session.coloured doc).size) :
    session.Refolds options storing closing (fun _ => False) ok where
  relevels := hfold
  number_colour := False.elim
  front := by
    intro doc doc' start limit stop stop' hoptions halike hlevels hstart hlt hle hle' hstop hstop'
    have hstart' : startsLine doc'.text start = true := by rwa [halike.startsLine_eq (Nat.le_of_lt hlt)]
    rw [hdrives.fold_eq hoptions halike.wellFormed hstart (Nat.lt_of_lt_of_le hlt hle) hstop,
      hdrives.fold_eq (halike.options.trans hoptions) halike.wellFormed' hstart' (Nat.lt_of_lt_of_le hlt hle') hstop']
    refine ⟨fun l hl => ?_, False.elim⟩
    exact h.levels_fold halike (fun l hl => hlevels.levels l (.inl hl)) hstart (Nat.le_of_lt hlt) hle hstop.le_size hle' hstop'.le_size
      (((h.relevelled_fold doc start stop).sameSource.closed limit l).mp hl)
  split := by
    intro doc hok _ hpos hlt hstart
    obtain ⟨hsame, hoptions⟩ := hsource hok
    have hwell := hsame.wellFormed doc.wellFormed_anew
    have hstart : startsLine (session.coloured doc).text doc.endStyled = true := by rwa [hsame.text]
    have hsplit := h.session_fold_eq (fun heq => hdrives (heq.trans (hsame.options.trans hoptions))) hwell hstart rfl rfl (.refl _ _)
      (hfits hok)
    rw [Session.fold_fold_eq_whole hfold hsame hsplit]
    exact .refl _ _ _ _
  number_zero := fun _ => False.elim

end Folding

end Highlight
