import Highlight.Proofs.Fold.Front
import Highlight.Proofs.Gibiane.Parts
import Highlight.Proofs.Session.Levels

/-!
Folding Gibiane goes by nothing behind a limit. A word is counted where it ends, and what makes it a block is looked for
on its line.
-/

namespace Highlight.Gibiane

open LineIndex FoldScan

variable {storing : Prop} {limit pos start stop stop' : Nat} {compact : Bool} {span span' : Span} {doc doc' : Document}

theorem nameFollows_front (h : doc.AlikeUpTo storing limit doc') (hpos : pos < limit ∨ stop = limit ∧ stop' = limit)
    (hstops : startsLine doc.text limit = true ∧ startsLine doc'.text limit = true ∨ stop = limit ∧ stop' = limit)
    (hle : limit ≤ stop) (hle' : limit ≤ stop') : nameFollows doc' pos stop' = nameFollows doc pos stop := by
  have hbytes : nameFollows doc' pos limit = nameFollows doc pos limit := by
    unfold nameFollows
    rw [h.bytes fun i _ hi => hi]
  rcases hstops with ⟨hstart, hstart'⟩ | ⟨rfl, rfl⟩
  . rcases hpos with hlt | ⟨rfl, rfl⟩
    . rw [nameFollows_upTo hstart hlt hle, nameFollows_upTo hstart' hlt hle', hbytes]
    . exact hbytes
  . exact hbytes

namespace FoldScan

variable {s s' : FoldScan}

/--
The same scan over two documents that show the same up to `limit` and have the same levels so far.
-/
structure Abreast (storing : Prop) (limit : Nat) (s s' : FoldScan) : Prop where
  sweep : s.sweep.Abreast storing limit s'.sweep
  eq : s' = { s with sweep := s'.sweep }

namespace Abreast

theorem atLine (h : doc.AlikeUpTo storing limit doc') {line : Nat} (hlevels : ∀ l : Nat, l < line → doc'.levels[l]? = doc.levels[l]?)
    (hnumber : (doc'.level line).number = (doc.level line).number) (onLineAbove : Bool) :
    Abreast storing limit (atLine doc line onLineAbove) (atLine doc' line onLineAbove) := by
  unfold FoldScan.atLine
  rw [hnumber]
  exact ⟨.ofDepth h hlevels _, rfl⟩

theorem place (h : Abreast storing limit s s') (hpos : pos < limit)
    (hbefore : span'.styleBefore s'.sweep.doc pos = span.styleBefore s.sweep.doc pos) :
    Abreast storing limit (s.place span pos) (s'.place span' pos) := by
  obtain ⟨hsweep, heq⟩ := h
  generalize s'.sweep = sweep at *
  subst heq
  have hbyte : sweep.doc.byteAt pos 0x20 = s.sweep.doc.byteAt pos 0x20 := hsweep.docs.byteAt (.inl hpos) 0x20
  unfold FoldScan.place
  dsimp only at hbefore ⊢
  rw [hbyte, hbefore, placeWord_eq, placeWord_eq]
  unfold placeComment
  dsimp only
  split
  . refine ⟨⟨hsweep.docs, hsweep.levels, ?_⟩, rfl⟩
    rw [hsweep.eq]
  . exact ⟨hsweep, rfl⟩

theorem word (h : Abreast storing limit s s') (hpos : pos < limit) : s'.word pos = s.word pos := by
  obtain ⟨hsweep, heq⟩ := h
  generalize s'.sweep = sweep at *
  subst heq
  unfold FoldScan.word
  dsimp only
  rw [hsweep.docs.bytes fun i _ hi => by omega]

/--
Within a line, the byte behind decides with the one that is counted whether a word ends there.
-/
theorem turnAt (h : Abreast storing limit s s') (hpos : pos < limit) (hinner : endsLine s.sweep.doc.text pos = false)
    (hstop : limit ≤ stop) (hsize : stop ≤ s.sweep.doc.size) (hstop' : limit ≤ stop') (hsize' : stop' ≤ s'.sweep.doc.size) :
    s'.turnAt stop' pos = s.turnAt stop pos := by
  have hdocs := h.sweep.docs
  have hword := h.word hpos
  have hbehind : s'.sweep.doc.byteAt (pos + 1) 0x20 = s.sweep.doc.byteAt (pos + 1) 0x20 :=
    hdocs.byteAt (hdocs.shown_succ (.inl hpos) hinner) 0x20
  have hstyle : s'.sweep.doc.styleAt pos = s.sweep.doc.styleAt pos := hdocs.styleAt (.inl hpos)
  have hcomment : s'.inComment = s.inComment := by rw [h.eq]
  have hstart : s'.wordStart = s.wordStart := by rw [h.eq]
  have hname : s.word pos = Utf8.encode "fin" →
      nameFollows s'.sweep.doc (s.wordStart + (s.word pos).length) stop'
        = nameFollows s.sweep.doc (s.wordStart + (s.word pos).length) stop := by
    intro hfin
    have hlength := s.length_word_le pos
    have hthree : (s.word pos).length = 3 := by rw [hfin]; decide
    have hstops := hdocs.stops hstop hsize hstop' hsize'
    refine nameFollows_front hdocs ?_ hstops hstop hstop'
    refine hstops.imp_left fun hends => ?_
    have hlast : pos + 1 ≠ limit := by
      rintro rfl
      rw [startsLine_succ, hinner] at hends
      exact absurd hends.1 Bool.false_ne_true
    omega
  unfold FoldScan.turnAt endsWord
  dsimp only
  rw [hbehind, hcomment, hstyle, hword, hstart]
  split
  . unfold FoldScan.turn
    split
    . rfl
    . split
      . next hfin => rw [hname (beq_iff_eq.mp hfin)]
      . rfl
  . rfl

theorem turnBy (h : Abreast storing limit s s') (turn : Int × Int) : Abreast storing limit (s.turnBy turn) (s'.turnBy turn) := by
  obtain ⟨hsweep, heq⟩ := h
  generalize s'.sweep = sweep at *
  subst heq
  refine ⟨⟨hsweep.docs, hsweep.levels, ?_⟩, rfl⟩
  unfold FoldScan.turnBy
  dsimp only
  rw [hsweep.eq]

theorem endByte (h : Abreast storing limit s s') (hpos : pos < limit) (hline : s.sweep.line = s.sweep.doc.lineOf pos) (compact : Bool)
    (b : UInt8) : Abreast storing limit (s.endByte compact b pos) (s'.endByte compact b pos) := by
  have hends : endsLine s'.sweep.doc.text pos = endsLine s.sweep.doc.text pos := h.sweep.docs.endsLine_eq hpos
  have hlevel : s'.sweep.plainLevel compact = s.sweep.plainLevel compact := by
    rw [h.sweep.eq]
    rfl
  obtain ⟨hlt, hlt'⟩ := h.sweep.line_lt hpos hline
  unfold FoldScan.endByte
  dsimp only
  rw [hends, hlevel, h.eq]
  split
  . exact ⟨(h.sweep.storeLevel hlt hlt' _).see b, rfl⟩
  . exact ⟨h.sweep.see b, rfl⟩

theorem step (h : Abreast storing limit s s') (hpos : pos < limit) (hline : s.sweep.line = s.sweep.doc.lineOf pos)
    (hbefore : span'.styleBefore s'.sweep.doc pos = span.styleBefore s.sweep.doc pos) (hstop : limit ≤ span.stop)
    (hsize : span.stop ≤ s.sweep.doc.size) (hstop' : limit ≤ span'.stop) (hsize' : span'.stop ≤ s'.sweep.doc.size) :
    Abreast storing limit (s.step compact span pos) (s'.step compact span' pos) := by
  have hplace := h.place hpos hbefore
  obtain ⟨_, _, _, heq⟩ := place_spec span s pos
  obtain ⟨_, _, _, heq'⟩ := place_spec span' s' pos
  have hdoc : (s.place span pos).sweep.doc = s.sweep.doc := by rw [heq]
  have hdoc' : (s'.place span' pos).sweep.doc = s'.sweep.doc := by rw [heq']
  have hturn : (s'.place span' pos).turnAt span'.stop pos = (s.place span pos).turnAt span.stop pos := by
    cases hends : endsLine s.sweep.doc.text pos with
    | true => rw [turnAt_of_endsLine hends, turnAt_of_endsLine (by rwa [h.sweep.docs.endsLine_eq hpos])]
    | false => exact hplace.turnAt hpos (by rwa [hdoc]) hstop (by rwa [hdoc]) hstop' (by rwa [hdoc'])
  have hbyte : s'.sweep.doc.byteAt pos 0x20 = s.sweep.doc.byteAt pos 0x20 := h.sweep.docs.byteAt (.inl hpos) 0x20
  rw [step_eq, step_eq, hturn, hbyte]
  refine (hplace.turnBy _).endByte hpos ?_ compact _
  rw [heq]
  exact hline

end Abreast

theorem line_step (compact : Bool) (span : Span) (s : FoldScan) (pos : Nat) :
    (s.step compact span pos).sweep.line = s.sweep.line + if endsLine s.sweep.doc.text pos then 1 else 0 := by
  cases hends : endsLine s.sweep.doc.text pos with
  | true =>
    obtain ⟨_, _, _, heq⟩ := place_spec span s pos
    rw [step_of_endsLine hends, heq]
    rfl
  | false => exact line_step_of_inner hends

/--
A scan on the line of `pos` that has written levels of `doc` at most.
-/
structure At (doc : Document) (pos : Nat) (s : FoldScan) : Prop where
  relevelled : doc.Relevelled s.sweep.doc
  line : s.sweep.line = doc.lineOf pos

theorem At.step (h : At doc pos s) (hdoc : doc.WellFormed) (compact : Bool) (span : Span) : At doc (pos + 1) (s.step compact span pos) where
  relevelled := h.relevelled.trans (relevelled_step s pos)
  line := by rw [line_step, h.relevelled.sameSource.text, h.line, hdoc.lineOf_succ]

/--
A scan does not come back to a line that it has left.
-/
theorem levels_scan (compact : Bool) (span : Span) (hle : start ≤ stop) {l : Nat} (hl : l < s.sweep.line) :
    (scan compact span s start stop).sweep.doc.levels[l]? = s.sweep.doc.levels[l]? := by
  refine (@scan_lockstep compact span span s s start stop
    (fun _ t _ => t.sweep.doc.levels[l]? = s.sweep.doc.levels[l]? ∧ l < t.sweep.line) hle ?_ ⟨rfl, hl⟩).1
  rintro pos t _ _ _ ⟨hlevels, hlt⟩
  refine ⟨?_, by rw [line_step]; omega⟩
  rw [← hlevels]
  cases hends : endsLine t.sweep.doc.text pos with
  | true =>
    obtain ⟨_, _, _, heq⟩ := place_spec span t pos
    rw [step_of_endsLine hends, heq]
    show (t.sweep.doc.setLevel t.sweep.line _).levels[l]? = _
    rw [Document.getElem?_setLevel, if_neg (by omega)]
  | false => rw [doc_step_of_inner hends]

section Alike

variable (h : Abreast storing limit s s') (hat : At doc start s) (hle : start ≤ limit) (hstart : span'.start = span.start)
  (hstyle : span'.style = span.style) (hspan : span.stop = stop) (hspan' : span'.stop = stop') (hstop : limit ≤ stop)
  (hsize : stop ≤ s.sweep.doc.size) (hstop' : limit ≤ stop') (hsize' : stop' ≤ s'.sweep.doc.size)
include h hat hle hstart hstyle hspan hspan' hstop hsize hstop' hsize'

/--
Two scans of documents that show the same come to the limit together.
-/
theorem Abreast.scan (compact : Bool) :
    At doc limit (scan compact span s start limit)
      ∧ Abreast storing limit (FoldScan.scan compact span s start limit) (FoldScan.scan compact span' s' start limit) := by
  subst hspan hspan'
  have hsource := hat.relevelled.sameSource
  have hdoc : doc.WellFormed := hsource.symm.wellFormed h.sweep.docs.wellFormed
  rw [hsource.size] at hsize
  have hlimit := @scan_lockstep compact span span' s s' start limit
    (fun pos t t' => At doc pos t ∧ Abreast storing limit t t' ∧ t'.sweep.doc.size = s'.sweep.doc.size) hle (by
      rintro pos t t' _ hlt ⟨hat, habreast, hsizes⟩
      have hbefore : span'.styleBefore t'.sweep.doc pos = span.styleBefore t.sweep.doc pos := by
        unfold Span.styleBefore
        rw [hstart, hstyle]
        split
        . rfl
        . exact habreast.sweep.docs.styleAt (.inl (by omega))
      refine ⟨hat.step hdoc compact span, habreast.step hlt ?_ hbefore hstop ?_ hstop' ?_, ?_⟩
      . rw [hat.line, hat.relevelled.sameSource.lineOf]
      . rwa [hat.relevelled.sameSource.size]
      . rwa [hsizes]
      . rw [(relevelled_step t' pos).sameSource.size, hsizes]) ⟨hat, h, rfl⟩
  exact ⟨hlimit.1, hlimit.2.1⟩

/--
Behind the limit, they leave the levels that they have stored there.
-/
theorem Abreast.levels_scan (compact : Bool) {l : Nat} (hl : l < doc.lineOf limit) :
    (FoldScan.scan compact span' s' start stop').sweep.doc.levels[l]? = (FoldScan.scan compact span s start stop).sweep.doc.levels[l]? := by
  obtain ⟨hlimit, habreast⟩ := h.scan hat hle hstart hstyle hspan hspan' hstop hsize hstop' hsize' compact
  rw [← scan_trans hle hstop, ← scan_trans hle hstop', FoldScan.levels_scan compact span' hstop', FoldScan.levels_scan compact span hstop]
  . exact habreast.sweep.levels l (by rwa [hlimit.line])
  . rwa [hlimit.line]
  . rwa [habreast.sweep.line, hlimit.line]

end Alike

theorem doc_scan_of_inner (compact : Bool) (span : Span) (hle : start ≤ stop)
    (hinner : ∀ pos, start ≤ pos → pos < stop → endsLine s.sweep.doc.text pos = false) :
    (scan compact span s start stop).sweep.doc = s.sweep.doc := by
  refine @scan_lockstep compact span span s s start stop (fun _ t _ => t.sweep.doc = s.sweep.doc) hle ?_ rfl
  intro pos t _ hpos hlt hdoc
  rw [doc_step_of_inner (by rw [hdoc]; exact hinner pos hpos hlt), hdoc]

end FoldScan

section Session

variable {session : Session} (hlexer : session.lexer = lexer)
include hlexer

theorem relevels : session.Relevels :=
  .of_lexer hlexer (relevelled_fold session.keywords)

/--
A pass begins with the line above, or with the text.
-/
theorem session_fold_eq_scan (hdoc : doc.WellFormed) (hstart : startsLine doc.text start = true) (hlt : start < stop)
    (hstop : IsBoundary doc.text stop) :
    session.fold doc start stop
      = (scan (doc.options.getFlag "fold.compact" true)
          ⟨lineFloor doc.text (start - 1), stop - lineFloor doc.text (start - 1), doc.styleBefore start⟩
          (atLine doc (doc.lineOf (start - 1)) (0 < start)) (lineFloor doc.text (start - 1)) stop).sweep.doc := by
  obtain ⟨span, hspan, hfold⟩ := exists_fold_eq hlexer hdoc hstart hlt hstop
  rw [hfold]
  rcases Nat.eq_zero_or_pos start with rfl | hpos
  . rw [fold_eq_scan hdoc hspan, Nat.zero_sub, lineFloor_of_startsLine startsLine_zero, hdoc.lineOf_zero]
    rfl
  . rw [fold_eq_scan_above hdoc hstart hpos hlt hspan, decide_eq_true hpos]

/--
A pass over a part of the first line writes nothing.
-/
theorem session_fold_eq_self (hdoc : doc.WellFormed) (hpos : 0 < stop) (hstop : IsBoundary doc.text stop) (hline : doc.lineOf stop = 0) :
    session.fold doc 0 stop = doc := by
  rw [session_fold_eq_scan hlexer hdoc startsLine_zero hpos hstop]
  have hfloor := lineFloor_le doc.text (0 - 1)
  exact doc_scan_of_inner _ _ (by omega) fun _ _ => hdoc.endsLine_of_lineOf_eq_zero hline

section Alike

variable (halike : doc.AlikeUpTo storing limit doc') (hlevels : doc.LevelsUpTo False (· = 0) start doc')
  (hstart : startsLine doc.text start = true) (hlt : start < limit) (hle : limit ≤ stop) (hle' : limit ≤ stop')
  (hstop : IsBoundary doc.text stop) (hstop' : IsBoundary doc'.text stop')
include halike hlevels hstart hlt hle hle' hstop hstop'

/--
Passes over documents that show the same up to a limit store the same levels for the lines in front of it, if they start
from the same levels.
-/
theorem levels_fold {l : Nat} (hl : l < doc.lineOf limit) :
    (session.fold doc' start stop').levels[l]? = (session.fold doc start stop).levels[l]? := by
  have hdoc := halike.wellFormed
  have hstart' : startsLine doc'.text start = true := by rwa [halike.startsLine_eq (Nat.le_of_lt hlt)]
  have hnumber : (doc'.level (doc.lineOf (start - 1))).number = (doc.level (doc.lineOf (start - 1))).number := by
    rcases Nat.eq_zero_or_pos start with rfl | hpos
    . exact hlevels.number hdoc.lineOf_zero
    . rw [Document.level, Document.level, hlevels.levels _ (.inl (hdoc.lineOf_pred_lt hstart hpos))]
  have habove : doc.lineOf (start - 1) ≤ doc.lineOf start := hdoc.lineOf_mono (Nat.sub_le start 1)
  have hfirst := hdoc.lineOf_lineFloor (start - 1)
  have hfloor := lineFloor_le doc.text (start - 1)
  have hsize := hstop.le_size
  have hsize' := hstop'.le_size
  rw [session_fold_eq_scan hlexer hdoc hstart (Nat.lt_of_lt_of_le hlt hle) hstop,
    session_fold_eq_scan hlexer halike.wellFormed' hstart' (Nat.lt_of_lt_of_le hlt hle') hstop', halike.lineFloor_eq (by omega),
    halike.lineOf_eq (by omega), halike.styleBefore (Nat.le_of_lt hlt), halike.options]
  generalize lineFloor doc.text (start - 1) = first at *
  have hscans := Abreast.atLine halike (fun l hl => hlevels.levels l (.inl (Nat.lt_of_lt_of_le hl habove))) hnumber (0 < start)
  have hat : At doc first (atLine doc (doc.lineOf (start - 1)) (0 < start)) := ⟨.refl doc, hfirst.symm⟩
  have hstops : ∀ {stop : Nat}, limit ≤ stop → Span.stop ⟨first, stop - first, doc.styleBefore start⟩ = stop := by
    intro stop hle
    show first + (stop - first) = stop
    omega
  refine hscans.levels_scan hat (by omega) ?_ ?_ (hstops hle) (hstops hle') hle hsize hle' hsize' _ hl
  . rfl
  . rfl

/--
Where the limit is on the first line, both passes end there.
-/
theorem number_fold_of_lineOf_eq_zero (hzero : doc.lineOf limit = 0) :
    ((session.fold doc' start stop').level 0).number = ((session.fold doc start stop).level 0).number := by
  have hdoc := halike.wellFormed
  obtain ⟨heq, heq'⟩ := (halike.stops hle hstop.le_size hle' hstop'.le_size).resolve_left fun hends => by
    have := hdoc.eq_zero_of_lineOf_eq_zero hends.1 hzero
    omega
  have hstart_zero : start = 0 := by
    refine hdoc.eq_zero_of_lineOf_eq_zero hstart ?_
    have := hdoc.lineOf_mono (Nat.le_of_lt hlt)
    omega
  subst hstart_zero
  have hnumber := hlevels.number hdoc.lineOf_zero
  rw [hdoc.lineOf_zero] at hnumber
  rw [heq] at hstop ⊢
  rw [heq'] at hstop' ⊢
  have hzero' := halike.lineOf_eq (Nat.le_refl limit)
  rw [session_fold_eq_self hlexer hdoc hlt hstop hzero, session_fold_eq_self hlexer halike.wellFormed' hlt hstop' (hzero'.trans hzero),
    hnumber]

theorem levelsUpTo_fold : (session.fold doc start stop).LevelsUpTo False (· = 0) limit (session.fold doc' start stop') := by
  have hsource := (Session.relevelled_fold (relevels hlexer) doc start stop).sameSource
  constructor
  case levels =>
    intro l hl
    rw [hsource.closed limit l, Document.Closed, false_and, or_false] at hl
    exact levels_fold hlexer halike hlevels hstart hlt hle hle' hstop hstop' hl
  case number =>
    intro hanchored
    rw [hsource.lineOf] at hanchored ⊢
    rw [hanchored]
    exact number_fold_of_lineOf_eq_zero hlexer halike hlevels hstart hlt hle hle' hstop hstop' hanchored

end Alike

/--
A session whose folding goes on at a line start, where it finds the first word of the line above and has not changed the
depth of the first line.
-/
theorem refolds {options : Options} {ok : Document → Prop} (hsource : ∀ {doc}, ok doc → doc.anew.SameSource (session.coloured doc))
    (hfits : ∀ {doc}, ok doc → LevelsFit (session.coloured doc))
    (hfinds : ∀ {doc}, ok doc → 0 < doc.endStyled → doc.endStyled < doc.size → FindsFirstWord (session.coloured doc) doc.endStyled)
    (hnumber : ∀ {doc}, ok doc → ((session.whole doc).level 0).number = (doc.anew.level 0).number) :
    session.Refolds options False False (· = 0) ok where
  relevels := relevels hlexer
  number_colour := fun _ => Session.number_colour (hlexer ▸ levels_colour session.keywords) _ _ _ _
  front := fun _ halike hlevels hstart hlt hle hle' hstop hstop' =>
    levelsUpTo_fold hlexer halike hlevels hstart hlt hle hle' hstop hstop'
  split := by
    intro doc hok _ hpos hlt hstart
    have hsame := hsource hok
    have hwell := hsame.wellFormed doc.wellFormed_anew
    have hstart : startsLine (session.coloured doc).text doc.endStyled = true := by rwa [hsame.text]
    have hsplit := session_fold_eq hlexer hwell hstart rfl rfl (.refl _ _) (hfits hok) (hfinds hok hpos hlt)
    rw [Session.fold_fold_eq_whole (relevels hlexer) hsame hsplit]
    exact .refl _ _ _ _
  number_zero := fun hok _ => hnumber hok

end Session

end Highlight.Gibiane
