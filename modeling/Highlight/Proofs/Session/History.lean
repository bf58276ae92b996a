import Highlight.Proofs.Document.Front
import Highlight.Proofs.Fold.Front
import Highlight.Proofs.Session.Parts

/-!
Styling a text anew after edits. A session styles only the lines that are not valid any more. Where colouring goes on
behind a line start as if it came by there, the valid styles are those of colouring all of the text from scratch,
whatever has been asked of the session.
-/

namespace Highlight

open LineIndex

/--
The same text, of which nothing is known yet.
-/
def Document.anew (doc : Document) : Document :=
  .fresh doc.text doc.encoding doc.options

namespace Document

variable {doc doc' : Document}

theorem wellFormed_anew (doc : Document) : doc.anew.WellFormed :=
  wellFormed_fresh doc.text doc.encoding doc.options

theorem SameSource.anew (h : doc.SameSource doc') : doc'.anew = doc.anew := by
  rw [Document.anew, Document.anew, h.text, h.encoding, h.options]

theorem size_of_anew (h : doc'.anew = doc.anew) : doc'.size = doc.size := by
  have hsize := congrArg Document.size h
  exact hsize

theorem SameSource.endStyled_set (h : doc.SameSource doc') {pos : Nat} (hpos : pos ≤ doc.size) :
    (doc'.setEndStyled pos).endStyled = pos := by
  show min pos doc'.size = pos
  rw [h.size]
  exact Nat.min_eq_left hpos

theorem WellFormed.lineOf_anew (h : doc.WellFormed) (pos : Nat) : doc.anew.lineOf pos = doc.lineOf pos := by
  rw [doc.wellFormed_anew.lineOf_eq, h.lineOf_eq]
  rfl

theorem WellFormed.pos_of_lt_lineOf (h : doc.WellFormed) {pos line : Nat} (hline : line < doc.lineOf pos) : 0 < pos := by
  apply Nat.pos_of_ne_zero
  rintro rfl
  rw [h.lineOf_zero] at hline
  exact absurd hline (Nat.not_lt_zero line)

/--
Behind a position, another line starts or the text ends.
-/
theorem WellFormed.exists_nextLine (h : doc.WellFormed) {pos : Nat} (hpos : pos ≤ doc.size) :
    ∃ next, (if doc.lineOf pos + 1 < doc.lineCount then doc.lineStart (doc.lineOf pos + 1) else doc.size) = next
      ∧ IsBoundary doc.text next ∧ pos ≤ next := by
  rw [h.lineOf_eq, Document.lineCount, Document.lineStart, h.lines]
  rcases next_lineStart_cases pos hpos with ⟨next, hlt, hnext, _, hcount, heq⟩ | ⟨_, hcount, _⟩
  . exact ⟨next, by rw [if_pos hcount, heq], .inl hnext, Nat.le_of_lt hlt⟩
  . exact ⟨doc.size, by rw [if_neg (by omega)], .inr rfl, hpos⟩

end Document

namespace Session

/--
What is asked of a session that keeps a text styled: an edit of the text, or the styles up to a position.
-/
inductive Request where
  | insert (pos : Nat) (bytes : Array UInt8)
  | delete (start stop : Nat)
  | ensureStyled (target : Nat)
  deriving DecidableEq, Repr

namespace Request

def apply (session : Session) (doc : Document) (request : Request) : Document :=
  match request with
  | .insert pos bytes => doc.insert pos bytes
  | .delete start stop => doc.delete start stop
  | .ensureStyled target => session.ensureStyled doc target

/--
Whether the bytes that a request brings into a text have no carriage return.
-/
def hasNoReturn (request : Request) : Bool :=
  match request with
  | .insert _ bytes => !bytes.contains 0x0D
  | _ => true

end Request

/--
The document that comes of some requests, one after the other.
-/
def serve (session : Session) (doc : Document) (requests : List Request) : Document :=
  requests.foldl (Request.apply session) doc

/--
What colouring all of a text leaves if nothing has been known of it.
-/
def coloured (session : Session) (doc : Document) : Document :=
  session.colour doc.anew 0 doc.size

/--
A document whose valid styles, and the states of their lines, are those of a pass from scratch over all of the text.
They end at a line start or with the text.
-/
def Valid (session : Session) (storing : Prop) (doc : Document) : Prop :=
  (session.coloured doc).AlikeUpTo storing doc.endStyled doc

/--
What makes the colouring of a session one that goes on behind the valid styles of documents that are `ok`: what it
leaves in front of a line start does not depend on what follows, and beginning where the valid styles end comes to the
same as beginning with the text. Only if it is `storing`, it goes by line states.
-/
structure Resumes (session : Session) (storing : Prop) (ok : Document → Prop) : Prop where
  sameSource : ∀ {doc}, ok doc → doc.anew.SameSource (session.coloured doc)
  front : ∀ {doc doc' limit}, ok doc → ok doc' → doc'.encoding = doc.encoding → doc'.options = doc.options → 0 < limit →
    (∀ i : Nat, i < limit → doc'.text[i]? = doc.text[i]?) → startsLine doc.text limit = true → startsLine doc'.text limit = true →
    (∀ i : Nat, i < limit → (session.coloured doc').styles[i]? = (session.coloured doc).styles[i]?)
      ∧ (storing → ∀ l : Nat, l < doc.anew.lineOf limit →
        (session.coloured doc').lineStates[l]? = (session.coloured doc).lineStates[l]?)
  goOn : ∀ {doc stop}, ok doc → session.Valid storing doc → doc.endStyled < stop → IsBoundary doc.text stop →
    doc.SameSource (session.colour doc doc.endStyled stop)
      ∧ (∀ i : Nat, i < stop → (session.colour doc doc.endStyled stop).styles[i]? = (session.coloured doc).styles[i]?)
      ∧ (storing → ∀ l : Nat, l < doc.linesTo stop →
        (session.colour doc doc.endStyled stop).lineStates[l]? = (session.coloured doc).lineStates[l]?)
      ∧ ∀ l : Nat, l < doc.lineOf doc.endStyled → (session.colour doc doc.endStyled stop).levels[l]? = doc.levels[l]?

/--
A session whose fold pass writes levels and nothing else.
-/
def Relevels (session : Session) : Prop :=
  ∀ (span : Span) (doc : Document), doc.Relevelled (session.lexer.fold session.keywords span doc)

variable {session : Session} {storing : Prop} {ok : Document → Prop} {doc doc' : Document} {front limit stop : Nat}

theorem Relevels.of_lexer {lexer : Lexer} (hlexer : session.lexer = lexer)
    (hfold : ∀ (span : Span) (doc : Document), doc.Relevelled (lexer.fold session.keywords span doc)) : session.Relevels := by
  intro span doc
  rw [hlexer]
  exact hfold span doc

theorem relevelled_fold (hfold : session.Relevels) (doc : Document) (start stop : Nat) :
    doc.Relevelled (session.fold doc start stop) := by
  unfold Session.fold Session.run
  split
  . exact hfold _ doc
  . exact .refl doc

theorem coloured_setEndStyled (session : Session) (doc : Document) (pos : Nat) :
    session.coloured (doc.setEndStyled pos) = session.coloured doc :=
  rfl

theorem coloured_eq (h : doc.SameSource doc') : session.coloured doc' = session.coloured doc := by
  rw [coloured, coloured, h.anew, h.size]

/--
A request for styles is met already, or the lines are styled that are not valid, up to the end of one.
-/
theorem ensureStyled_cases (session : Session) (hdoc : doc.WellFormed) (hvalid : IsBoundary doc.text doc.endStyled) (target : Nat) :
    min target doc.size ≤ doc.endStyled ∧ session.ensureStyled doc target = doc
      ∨ ∃ stop, doc.endStyled < stop ∧ min target doc.size ≤ stop ∧ IsBoundary doc.text stop
        ∧ session.ensureStyled doc target = (session.style doc doc.endStyled stop).setEndStyled stop := by
  have hsize : min target doc.size ≤ doc.size := Nat.min_le_right _ _
  unfold ensureStyled
  dsimp only
  generalize min target doc.size = target at *
  split
  . next hle => exact .inl ⟨hle, rfl⟩
  . next hlt =>
    have hstart : doc.lineStart (doc.lineOf doc.endStyled) = doc.endStyled := by
      rw [hdoc.lineStart_lineOf, lineFloor_of_startsLine (hvalid.startsLine (Nat.lt_of_lt_of_le (Nat.lt_of_not_le hlt) hsize))]
    obtain ⟨stop, hstop, hbound, hle⟩ := hdoc.exists_nextLine hsize
    rw [hstart, hstop]
    exact .inr ⟨stop, by omega, hle, hbound, rfl⟩

namespace Resumes

theorem mono {ok' : Document → Prop} (h : session.Resumes storing ok) (hok : ∀ doc, ok' doc → ok doc) : session.Resumes storing ok' where
  sameSource := fun h' => h.sameSource (hok _ h')
  front := fun h₁ h₂ => h.front (hok _ h₁) (hok _ h₂)
  goOn := fun h' => h.goOn (hok _ h')

variable (h : session.Resumes storing ok)
include h

section Coloured

variable (hok : ok doc)
include hok

theorem wellFormed_coloured : (session.coloured doc).WellFormed :=
  (h.sameSource hok).wellFormed doc.wellFormed_anew

theorem lineOf_coloured (hdoc : doc.WellFormed) (pos : Nat) : (session.coloured doc).lineOf pos = doc.lineOf pos := by
  rw [(h.sameSource hok).lineOf, hdoc.lineOf_anew]

theorem linesTo_coloured (hdoc : doc.WellFormed) (pos : Nat) : (session.coloured doc).linesTo pos = doc.linesTo pos := by
  rw [Document.linesTo, Document.linesTo, h.lineOf_coloured hok hdoc]

end Coloured

/--
Colouring two texts with the same front leaves the same there.
-/
theorem alikeUpTo_coloured (hok : ok doc) (hok' : ok doc') (hreturn : 0x0D ∉ doc.text) (hreturn' : 0x0D ∉ doc'.text)
    (hencoding : doc'.encoding = doc.encoding) (hoptions : doc'.options = doc.options)
    (htext : ∀ i : Nat, i < limit → doc'.text[i]? = doc.text[i]?) (hstart : startsLine doc.text limit = true)
    (hstart' : startsLine doc'.text limit = true) : (session.coloured doc).AlikeUpTo storing limit (session.coloured doc') := by
  have hsame := h.sameSource hok
  have hsame' := h.sameSource hok'
  have hwell := h.wellFormed_coloured hok
  have hwell' := h.wellFormed_coloured hok'
  have hreturn : 0x0D ∉ (session.coloured doc).text := by rwa [hsame.text]
  have hreturn' : 0x0D ∉ (session.coloured doc').text := by rwa [hsame'.text]
  have hoptions : (session.coloured doc').options = (session.coloured doc).options := by
    rw [hsame.options, hsame'.options]
    exact hoptions
  rcases Nat.eq_zero_or_pos limit with rfl | hpos
  . exact .zero hwell hwell' hreturn hreturn' hoptions
  . obtain ⟨hstyles, hstates⟩ := h.front hok hok' hencoding ‹_› hpos htext hstart hstart'
    refine ⟨hwell, hwell', hreturn, hreturn', hoptions, .inl ⟨?_, ?_⟩, ?_, hstyles, ?_⟩
    . rwa [hsame.text]
    . rwa [hsame'.text]
    . intro i hi
      rw [hsame.text, hsame'.text]
      exact htext i hi
    . intro hstoring l hl
      rw [hwell.linesTo_of_startsLine (by rwa [hsame.text]), hsame.lineOf] at hl
      exact hstates hstoring l hl

theorem valid_fresh {text : Array UInt8} {encoding : Encoding} {options : Options} (hok : ok (.fresh text encoding options))
    (hreturn : 0x0D ∉ text) : session.Valid storing (.fresh text encoding options) := by
  have hsame := h.sameSource hok
  exact .zero (h.wellFormed_coloured hok) (Document.wellFormed_fresh text encoding options) (by rwa [hsame.text]) hreturn
    hsame.options.symm

/--
An edit takes back what is behind it, and the passes over both of the texts leave the same in front of it.
-/
theorem front_edited (hok : ok doc) (hok' : ok doc') (hvalid : session.Valid storing doc) (hedited : doc.Edited doc' front) :
    startsLine doc.text doc'.endStyled = true ∧ doc.AlikeUpTo storing doc'.endStyled doc'
      ∧ (session.coloured doc).AlikeUpTo storing doc'.endStyled (session.coloured doc') := by
  have hend := hedited.endStyled
  have hboundary : IsBoundary doc.text doc.endStyled := (h.sameSource hok).text ▸ hvalid.isBoundary
  have hfront := le_size_of_startsLine hedited.startsLine
  have hstart : startsLine doc.text doc'.endStyled = true := by
    rcases Nat.lt_or_ge doc.endStyled front with hlt | hge
    . rw [hend, Nat.min_eq_left (Nat.le_of_lt hlt)]
      exact hboundary.startsLine (by omega)
    . rw [hend, Nat.min_eq_right hge]
      exact hedited.startsLine
  have hedit : doc.AlikeUpTo storing doc'.endStyled doc' :=
    (hedited.alikeUpTo hvalid.wellFormed' hvalid.not_mem').restrict (by omega) hstart
  have hstart' : startsLine doc'.text doc'.endStyled = true := (hedit.startsLine_eq (Nat.le_refl _)).trans hstart
  exact ⟨hstart, hedit, h.alikeUpTo_coloured hok hok' hvalid.not_mem' hedited.not_mem hedited.encoding hedited.options hedit.text hstart
    hstart'⟩

theorem valid_edited (hok : ok doc) (hok' : ok doc') (hvalid : session.Valid storing doc) (hedited : doc.Edited doc' front) :
    session.Valid storing doc' := by
  obtain ⟨hstart, hedit, hagree⟩ := h.front_edited hok hok' hvalid hedited
  have hle : doc'.endStyled ≤ doc.endStyled := hedited.endStyled ▸ Nat.min_le_left _ _
  have hrestrict := hvalid.restrict hle (by rw [(h.sameSource hok).text]; exact hstart)
  exact hagree.symm.trans (hrestrict.trans hedit)

section Styled

variable (hok : ok doc) (hvalid : session.Valid storing doc)
include hok hvalid

theorem isBoundary_endStyled : IsBoundary doc.text doc.endStyled := by
  have hboundary := hvalid.isBoundary
  rwa [IsBoundary, (h.sameSource hok).text] at hboundary

/--
A pass that goes on where the valid styles end leaves what a pass from scratch does.
-/
theorem alikeUpTo_colour (hlt : doc.endStyled < stop) (hstop : IsBoundary doc.text stop) :
    (session.coloured doc).AlikeUpTo storing stop (session.colour doc doc.endStyled stop) := by
  obtain ⟨hsame, hstyles, hstates, _⟩ := h.goOn hok hvalid hlt hstop
  have hsource := h.sameSource hok
  refine ⟨hvalid.wellFormed, hsame.wellFormed hvalid.wellFormed', hvalid.not_mem, ?_, ?_, ?_, ?_, hstyles, ?_⟩
  . rw [hsame.text]
    exact hvalid.not_mem'
  . rw [hsame.options, hsource.options]
    rfl
  . rw [hsame.text, hsource.text, hsame.size, hsource.size]
    exact hstop.imp (fun hstart => ⟨hstart, hstart⟩) fun hend => ⟨hend.symm, hend.symm⟩
  . intro i _
    rw [hsame.text, hsource.text]
    rfl
  . intro hstoring l hl
    rw [h.linesTo_coloured hok hvalid.wellFormed'] at hl
    exact hstates hstoring l hl

theorem sameSource_style (hfold : session.Relevels) (hlt : doc.endStyled < stop) (hstop : IsBoundary doc.text stop) :
    doc.SameSource (session.style doc doc.endStyled stop) :=
  (h.goOn hok hvalid hlt hstop).1.trans (relevelled_fold hfold _ _ _).sameSource

/--
Behind a request for styles, all styles up to its target are valid.
-/
theorem valid_ensureStyled (hfold : session.Relevels) (target : Nat) :
    session.Valid storing (session.ensureStyled doc target) ∧ (session.ensureStyled doc target).anew = doc.anew
      ∧ min target doc.size ≤ (session.ensureStyled doc target).endStyled := by
  rcases session.ensureStyled_cases hvalid.wellFormed' (h.isBoundary_endStyled hok hvalid) target with
    ⟨hle, heq⟩ | ⟨stop, hlt, hle, hstop, heq⟩
  . rw [heq]
    exact ⟨hvalid, rfl, hle⟩
  . have hsource := h.sameSource_style hok hvalid hfold hlt hstop
    have halike := (h.alikeUpTo_colour hok hvalid hlt hstop).relevelled (.refl _) (relevelled_fold hfold _ doc.endStyled stop)
    have hend := hsource.endStyled_set hstop.le_size
    have hanew : ((session.style doc doc.endStyled stop).setEndStyled stop).anew = doc.anew := hsource.anew
    rw [heq]
    refine ⟨?_, hanew, by rwa [hend]⟩
    rw [Valid, hend, coloured_setEndStyled, coloured_eq hsource]
    exact halike.setEndStyled stop

omit h hok hvalid in
theorem styles_style (hfold : session.Relevels) : (session.style doc.anew 0 doc.size).styles = (session.coloured doc).styles :=
  (relevelled_fold hfold _ _ _).styles

/--
A document that is styled to its end has the styles of a text that is styled from scratch.
-/
theorem styles_ensureStyled (hfold : session.Relevels) :
    (session.ensureStyled doc doc.size).styles = (session.style doc.anew 0 doc.size).styles := by
  obtain ⟨hvalid', hanew, hle⟩ := h.valid_ensureStyled hok hvalid hfold doc.size
  have hsize := Document.size_of_anew hanew
  have hstyles := (h.wellFormed_coloured hok).styles
  have hstyles' := hvalid'.wellFormed'.styles
  have hcount : (session.coloured doc).size = doc.size := (h.sameSource hok).size
  rw [Nat.min_self] at hle
  rw [Session.Valid, coloured, hanew, hsize] at hvalid'
  rw [styles_style hfold]
  apply Array.ext_getElem?
  intro i
  rcases Nat.lt_or_ge i doc.size with hlt | hge
  . exact hvalid'.styles i (Nat.lt_of_lt_of_le hlt hle)
  . rw [Array.getElem?_eq_none (by omega), Array.getElem?_eq_none (by omega)]

end Styled

/--
Every request keeps the valid styles valid.
-/
theorem valid_apply (hfold : session.Relevels) {request : Request} (hreturn : request.hasNoReturn = true) (hok : ok doc)
    (hok' : ok (request.apply session doc)) (hvalid : session.Valid storing doc) :
    session.Valid storing (request.apply session doc) := by
  cases request with
  | insert pos bytes =>
    have hbytes : 0x0D ∉ bytes := by simpa [Request.hasNoReturn] using hreturn
    obtain ⟨front, hedited⟩ := Document.edited_insert hvalid.wellFormed' hvalid.not_mem' hbytes pos
    exact h.valid_edited hok hok' hvalid hedited
  | delete start stop =>
    rcases Document.edited_delete hvalid.wellFormed' hvalid.not_mem' start stop with heq | ⟨front, hedited⟩
    . show session.Valid storing (doc.delete start stop)
      rwa [heq]
    . exact h.valid_edited hok hok' hvalid hedited
  | ensureStyled target => exact (h.valid_ensureStyled hok hvalid hfold target).1

theorem source_apply (hfold : session.Relevels) (hok : ok doc) (hvalid : session.Valid storing doc) (request : Request) :
    (request.apply session doc).encoding = doc.encoding ∧ (request.apply session doc).options = doc.options := by
  cases request with
  | insert pos bytes => exact ⟨rfl, rfl⟩
  | delete start stop =>
    show (doc.delete start stop).encoding = _ ∧ (doc.delete start stop).options = _
    unfold Document.delete
    dsimp only
    split <;> exact ⟨rfl, rfl⟩
  | ensureStyled target =>
    have hanew := (h.valid_ensureStyled hok hvalid hfold target).2.1
    have hencoding := congrArg Document.encoding hanew
    have hoptions := congrArg Document.options hanew
    exact ⟨hencoding, hoptions⟩

end Resumes

theorem serve_append (session : Session) (doc : Document) (served : List Request) (request : Request) :
    session.serve doc (served ++ [request]) = request.apply session (session.serve doc served) := by
  rw [serve, List.foldl_append]
  rfl

/--
What each request keeps, a sequence of requests does.
-/
theorem serve_induction {P : Document → Prop} {requests : List Request} (hstart : P doc)
    (hstep : ∀ served request, served ++ [request] <+: requests → P (session.serve doc served) →
      P (session.serve doc (served ++ [request]))) : P (session.serve doc requests) := by
  induction requests generalizing doc with
  | nil => exact hstart
  | cons request requests ih =>
    refine ih (hstep [] request (List.prefix_append [request] requests) hstart) ?_
    intro served request' hpart
    exact hstep (request :: served) request' (List.cons_prefix_cons.mpr ⟨rfl, hpart⟩)

/--
Whatever has been asked of a session, the styles that it takes for valid are so.
-/
theorem Resumes.valid_serve (h : session.Resumes storing ok) (hfold : session.Relevels) {text : Array UInt8}
    (hreturn : 0x0D ∉ text) (encoding : Encoding) (options : Options) {requests : List Request}
    (hreturns : ∀ request ∈ requests, request.hasNoReturn = true)
    (hok : ∀ served, served <+: requests → (session.serve (.fresh text encoding options) served).encoding = encoding →
      (session.serve (.fresh text encoding options) served).options = options →
      ok (session.serve (.fresh text encoding options) served)) :
    let doc := session.serve (.fresh text encoding options) requests
    session.Valid storing doc ∧ doc.encoding = encoding ∧ doc.options = options := by
  refine serve_induction (P := fun doc => session.Valid storing doc ∧ doc.encoding = encoding ∧ doc.options = options)
    ⟨h.valid_fresh (hok [] List.nil_prefix rfl rfl) hreturn, rfl, rfl⟩ ?_
  rintro served request hpart ⟨hvalid, hencoding, hoptions⟩
  have hbefore := hok served ((List.prefix_append served [request]).trans hpart) hencoding hoptions
  obtain ⟨hencoding', hoptions'⟩ := h.source_apply hfold hbefore hvalid request
  have hbehind := hok (served ++ [request]) hpart
  rw [serve_append] at hbehind ⊢
  refine ⟨?_, hencoding'.trans hencoding, hoptions'.trans hoptions⟩
  exact h.valid_apply hfold (hreturns request (hpart.subset (List.mem_append_right served List.mem_cons_self))) hbefore
    (hbehind (hencoding'.trans hencoding) (hoptions'.trans hoptions)) hvalid

end Session

end Highlight
