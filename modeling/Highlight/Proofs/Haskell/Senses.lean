import Highlight.Proofs.Document.Front
import Highlight.Proofs.Haskell.Nesting

/-!
The number in the memory of Haskell has a sense for each kind of token. Where a token reads it, it holds what that kind of
token has put there, in all passes that go on from a fresh document or from what earlier passes have left.
-/

namespace Highlight.Haskell

open LineIndex

variable {doc : Document} {keywords : Keywords} {settings : Settings} {span : Span} {magicHash : Bool} {s t u : Scan}

/--
The styles that a word can get.
-/
def wordStyles : List Highlight.Style :=
  [Style.identifier, Style.keyword, Style.moduleName, Style.capital, Style.operator]

/--
The numbers of the styles that a name can have by its form.
-/
def IsNameStyle (extra : Nat) : Prop :=
  extra = Style.capital.toNat ∨ extra = Style.identifier.toNat ∨ extra = Style.operator.toNat

namespace Scan

/--
The number in the memory is one that the open token can read: the base of a number, the style of a name, the depth of a
block comment.
-/
structure Sensible (s : Scan) : Prop where
  base : s.cursor.state = Style.number → s.memory.extra = 8 ∨ s.memory.extra = 10 ∨ s.memory.extra = 16
  name : s.cursor.state = Style.identifier → IsNameStyle s.memory.extra
  depth : s.cursor.state = Style.commentBlock → 1 ≤ s.memory.extra

/--
Between two tokens and in one that does not read the number, it can be any.
-/
theorem Sensible.of_state (style : Highlight.Style) (h : s.cursor.state = style)
    (hstyle : (style == Style.number || style == Style.identifier || style == Style.commentBlock) = false) : s.Sensible := by
  subst h
  simp only [Bool.or_eq_false_iff, beq_eq_false_iff_ne] at hstyle
  exact ⟨fun h => absurd h hstyle.1.1, fun h => absurd h hstyle.1.2, fun h => absurd h hstyle.2⟩

theorem sensible_startNumber (s : Scan) : s.startNumber.Sensible := by
  have hbase {t : Scan} (count : Nat) (hstate : t.cursor = (s.cursor.setState Style.number).forwardBy count)
      (hextra : t.memory.extra = 8 ∨ t.memory.extra = 10 ∨ t.memory.extra = 16) : t.Sensible := by
    have hnumber : t.cursor.state = Style.number := by
      rw [hstate]
      exact Cursor.state_forwardBy _ count
    refine ⟨fun _ => hextra, fun h => ?_, fun h => ?_⟩
    . exact absurd (hnumber.symm.trans h) (by decide)
    . exact absurd (hnumber.symm.trans h) (by decide)
  unfold startNumber
  dsimp only
  split
  . apply hbase 2 rfl
    exact .inr (.inr rfl)
  . split
    . apply hbase 2 rfl
      exact .inl rfl
    . apply hbase 1 rfl
      exact .inr (.inl rfl)

/--
A token that reads the number sets it when it starts.
-/
theorem sensible_start (h : s.cursor.state = Style.default) : s.start.Sensible := by
  have hgoes (style : Highlight.Style) (count : Nat) : ((s.cursor.setState style).forwardBy count).state = style :=
    Cursor.state_forwardBy _ count
  unfold start
  dsimp only
  refine iteInduction (fun _ => s.sensible_startNumber) fun _ => iteInduction (fun _ => ?_) fun _ => iteInduction (fun _ => ?_)
    fun _ => iteInduction (fun _ => ?_) fun _ => iteInduction (fun _ => ?_) fun _ => iteInduction (fun _ => ?_)
    fun _ => iteInduction (fun _ => ?_) fun _ => iteInduction (fun _ => ?_) fun _ => iteInduction (fun _ => ?_)
    fun _ => iteInduction (fun _ => ?_) fun _ => ?_
  . exact .of_state _ (hgoes Style.pragma 3) rfl
  . exact .of_state _ (hgoes Style.commentLine 2) rfl
  . refine ⟨fun hnumber => ?_, fun hname => ?_, fun _ => Nat.le_refl 1⟩
    . exact absurd ((hgoes Style.commentBlock 2).symm.trans hnumber) (by decide)
    . exact absurd ((hgoes Style.commentBlock 2).symm.trans hname) (by decide)
  . exact .of_state _ (hgoes Style.string 1) rfl
  . exact .of_state _ (hgoes Style.character 1) rfl
  . exact .of_state _ (hgoes Style.preprocessor 1) rfl
  . exact .of_state Style.operator rfl rfl
  . exact .of_state Style.default rfl rfl
  . refine ⟨fun hnumber => ?_, fun _ => ?_, fun hblock => ?_⟩
    . exact absurd ((hgoes Style.identifier 1).symm.trans hnumber) (by decide)
    . show IsNameStyle (if s.cursor.cur.isUpper = true then Style.capital else Style.identifier).toNat
      split
      . exact .inl rfl
      . exact .inr (.inl rfl)
    . exact absurd ((hgoes Style.identifier 1).symm.trans hblock) (by decide)
  . exact .of_state _ ((Cursor.state_forwardBy s.cursor 1).trans h) rfl

theorem Sensible.enter (h : s.Sensible) : s.enter.Sensible := by
  unfold Scan.enter
  split
  . next hdefault => exact sensible_start (beq_iff_eq.mp hdefault)
  . exact h

/--
The open token goes on with its number, or ends.
-/
theorem Sensible.withCursor {c : Cursor} (h : s.Sensible) (hstate : c.state = s.cursor.state ∨ c.state = Style.default) :
    (s.withCursor c).Sensible := by
  rcases hstate with hsame | hended
  . exact ⟨fun hnumber => h.base (hsame.symm.trans hnumber), fun hname => h.name (hsame.symm.trans hname),
      fun hblock => h.depth (hsame.symm.trans hblock)⟩
  . exact .of_state _ hended rfl

theorem state_leaveQuoted (quote : Code) (c : Cursor) :
    (leaveQuoted quote c).state = c.state ∨ (leaveQuoted quote c).state = Style.default := by
  unfold leaveQuoted
  split
  . exact .inr rfl
  . split
    . exact .inl (Cursor.state_forwardBy c 2)
    . split
      . exact .inr rfl
      . exact .inl (Cursor.state_forwardBy c 1)

theorem state_leaveNumber (base : Nat) (c : Cursor) :
    (leaveNumber base c).state = c.state ∨ (leaveNumber base c).state = Style.default := by
  unfold leaveNumber
  dsimp only
  split
  . exact .inl (Cursor.state_forwardBy c 1)
  . split
    . refine .inl ?_
      split
      . exact Cursor.state_forwardBy c 2
      . exact Cursor.state_forwardBy c 1
    . exact .inr rfl

theorem state_leavePreprocessor (within : Bool) (c : Cursor) :
    (leavePreprocessor within c).state = c.state ∨ (leavePreprocessor within c).state = Style.default := by
  unfold leavePreprocessor
  split
  . exact .inr rfl
  . split
    . exact .inl (Cursor.state_forwardBy c 2)
    . split
      . exact .inr rfl
      . exact .inl (Cursor.state_forwardBy c 1)

theorem sensible_leaveCommentLine (h : s.cursor.state = Style.commentLine) : s.leaveCommentLine.Sensible := by
  unfold leaveCommentLine
  dsimp only
  split
  . split
    . exact .of_state Style.operator rfl rfl
    . exact .of_state _ h rfl
  . split
    . exact .of_state Style.default rfl rfl
    . exact .of_state _ ((Cursor.state_forwardBy s.cursor 1).trans h) rfl

/--
A block comment goes on as long as its depth is not zero.
-/
theorem Sensible.leaveCommentBlock (h : s.Sensible) (hstate : s.cursor.state = Style.commentBlock) :
    s.leaveCommentBlock.Sensible := by
  have hdeep {t : Scan} (count : Nat) (hcursor : t.cursor = s.cursor.forwardBy count) (hextra : 1 ≤ t.memory.extra) : t.Sensible := by
    have hblock : t.cursor.state = Style.commentBlock := by
      rw [hcursor, Cursor.state_forwardBy, hstate]
    refine ⟨fun hnumber => ?_, fun hname => ?_, fun _ => hextra⟩
    . exact absurd (hblock.symm.trans hnumber) (by decide)
    . exact absurd (hblock.symm.trans hname) (by decide)
  unfold Scan.leaveCommentBlock
  dsimp only
  split
  . exact hdeep 2 rfl (Nat.succ_pos _)
  . split
    . by_cases hzero : s.memory.extra - 1 = 0
      . rw [if_pos (beq_iff_eq.mpr hzero)]
        exact .of_state Style.default rfl rfl
      . rw [if_neg (fun heq => hzero (beq_iff_eq.mp heq))]
        exact hdeep 2 rfl (Nat.pos_of_ne_zero hzero)
    . exact hdeep 1 rfl (h.depth hstate)

theorem Sensible.leave (h : s.Sensible) (settings : Settings) : (s.leave settings).Sensible := by
  unfold Scan.leave
  dsimp only
  split
  . exact .of_state Style.default rfl rfl
  . exact h.withCursor (state_leaveQuoted _ _)
  . exact h.withCursor (state_leaveQuoted _ _)
  . exact h.withCursor (state_leaveNumber _ _)
  . exact .of_state Style.default rfl rfl
  . next hstate => exact sensible_leaveCommentLine hstate
  . next hstate => exact h.leaveCommentBlock hstate
  . apply h.withCursor
    split
    . exact .inr rfl
    . exact .inl (Cursor.state_forwardBy s.cursor 1)
  . exact h.withCursor (state_leavePreprocessor _ _)
  . exact h

theorem Sensible.storeLines (h : s.Sensible) : s.storeLines.Sensible := by
  obtain ⟨_, heq, _, _⟩ := s.exists_pen_storeLines
  rw [heq]
  exact ⟨h.base, h.name, h.depth⟩

/--
No step takes the number of one kind of token for that of another one.
-/
theorem Sensible.step (h : s.Sensible) (settings : Settings) : (s.left settings).Sensible ∧ (s.step settings).Sensible := by
  have hleft : (s.left settings).Sensible := h.storeLines.leave settings
  exact ⟨hleft, hleft.enter⟩

theorem Sensible.of_iterates (hrun : Iterates (·.cursor.more) (Scan.step settings) s t) (h : s.Sensible) : t.Sensible :=
  hrun.invariant Sensible (fun _ _ h => (h.step settings).2) h

/--
The style of a name stays one as the name goes on.
-/
theorem isNameStyle_skipName (magicHash : Bool) (h : IsNameStyle s.memory.extra) :
    IsNameStyle (s.skipName magicHash).memory.extra := by
  refine repeatWhile_induction _ _ (fun s : Scan => IsNameStyle s.memory.extra) ?_ _ s h
  intro s _ hs
  have hgoingOn : ∀ style, goingOn? magicHash s = some style → IsNameStyle style := by
    intro style hstyle
    unfold goingOn? at hstyle
    dsimp only at hstyle
    split at hstyle
    . exact Option.some.inj hstyle ▸ hs
    . split at hstyle
      . split at hstyle
        . exact Option.some.inj hstyle ▸ .inl rfl
        . split at hstyle
          . exact Option.some.inj hstyle ▸ .inr (.inl rfl)
          . split at hstyle
            . exact Option.some.inj hstyle ▸ .inr (.inr rfl)
            . cases hstyle
      . split at hstyle
        . exact Option.some.inj hstyle ▸ hs
        . cases hstyle
  unfold goOn
  cases hnext : goingOn? magicHash s with
  | none => exact hs
  | some style => exact hgoingOn style hnext

theorem classify_fst (settings : Settings) (mode : Mode) (own : Highlight.Style) (name : String) :
    (classify settings mode own name).1 = own ∨ (classify settings mode own name).1 ∈ [Style.keyword, Style.moduleName] := by
  unfold classify
  grind

theorem style_mem_of_isNameStyle {extra : Nat} (h : IsNameStyle extra) :
    (if extra < 256 then UInt8.ofNat extra else Style.identifier) ∈ wordStyles := by
  rcases h with rfl | rfl | rfl
  . decide
  . decide
  . decide

/--
A name whose number is the style of a name gets one of the styles of words.
-/
theorem exists_wordStyle (h : IsNameStyle s.memory.extra) (settings : Settings) :
    ∃ style ∈ wordStyles, (s.leaveIdentifier settings).cursor
      = ((s.skipName settings.magicHash).cursor.changeState style).setState Style.default := by
  refine ⟨_, ?_, rfl⟩
  have hown := style_mem_of_isNameStyle (isNameStyle_skipName settings.magicHash h)
  rcases classify_fst settings (s.skipName settings.magicHash).memory.mode _
      ((s.skipName settings.magicHash).cursor.token 99) with heq | hlisted
  . rw [heq]
    exact hown
  . rcases List.mem_cons.mp hlisted with heq | hlisted
    . rw [heq]
      decide
    . rw [List.mem_singleton.mp hlisted]
      decide

end Scan

namespace Memory

/--
A line state keeps the number, or the largest one that it has room for.
-/
theorem unpack_pack_saturate (memory : Memory) : unpack memory.pack = ⟨memory.mode, LineState.saturate memory.extra 27⟩ := by
  have hlt := LineState.saturate_lt memory.extra 27
  have hpack : memory.pack = (⟨memory.mode, LineState.saturate memory.extra 27⟩ : Memory).pack := by
    unfold pack
    dsimp only
    rw [LineState.saturate_of_lt hlt]
  rw [hpack]
  exact unpack_pack hlt

theorem one_le_extra_unpack {memory : Memory} (h : 1 ≤ memory.extra) : 1 ≤ (unpack memory.pack).extra := by
  rw [unpack_pack_saturate]
  exact Nat.le_min.mpr ⟨h, by decide⟩

end Memory

/--
A line start where a pass can go on with the style and the line state in front of it.
-/
structure Resumable (doc : Document) (pos : Nat) : Prop where
  startsLine : startsLine doc.text pos = true
  loose : loose (doc.styleBefore pos) = true
  depth : doc.styleBefore pos = Style.commentBlock → 1 ≤ (Memory.before doc (doc.lineOf pos)).extra

theorem resumable_fresh {text : Array UInt8} {encoding : Encoding} {options : Options} {pos : Nat}
    (hpos : startsLine text pos = true) : Resumable (.fresh text encoding options) pos := by
  have hstyle : (Document.fresh text encoding options).styleBefore pos = Style.default := by
    unfold Document.styleBefore Document.styleAt
    split
    . rfl
    . show ((Array.replicate text.size 0)[pos - 1]?).getD 0 = 0
      rw [Array.getElem?_replicate]
      split
      . rfl
      . rfl
  refine ⟨hpos, ?_, fun hblock => ?_⟩
  . rw [hstyle]
    rfl
  . exact absurd (hstyle.symm.trans hblock) (by decide)

namespace Resumable

variable {start pos length : Nat} (hdoc : doc.WellFormed)
include hdoc

theorem wholeLines_start (h : LineIndex.startsLine doc.text start = true) (length : Nat) (style : Highlight.Style) :
    (doc.wholeLines ⟨start, length, style⟩).start = start := by
  have hsize : start ≤ doc.size := le_size_of_startsLine h
  rw [hdoc.wholeLines_start]
  show lineFloor doc.text (min start doc.size) = start
  rw [Nat.min_eq_left hsize, lineFloor_of_startsLine h]

theorem sensible_ofSpan (h : Resumable doc start) (length : Nat) :
    (Scan.ofSpan ⟨start, length, doc.styleBefore start⟩ doc).Sensible := by
  have hstate : (Scan.ofSpan ⟨start, length, doc.styleBefore start⟩ doc).cursor.state = doc.styleBefore start :=
    style_wholeLines hdoc h.startsLine length _
  have hmemory : (Scan.ofSpan ⟨start, length, doc.styleBefore start⟩ doc).memory = .before doc (doc.lineOf start) := by
    show Memory.before doc (doc.lineOf (doc.wholeLines ⟨start, length, doc.styleBefore start⟩).start) = _
    rw [wholeLines_start hdoc h.startsLine]
  have hloose := h.loose
  refine ⟨fun hnumber => ?_, fun hname => ?_, fun hblock => ?_⟩
  . rw [← hstate, hnumber] at hloose
    cases hloose
  . rw [← hstate, hname] at hloose
    cases hloose
  . rw [hmemory]
    exact h.depth (hstate.symm.trans hblock)

omit hdoc in
theorem before_colour_of_outside (hdoc : doc.WellFormed) (keywords : Keywords)
    (hloose : Haskell.loose (doc.wholeLines span).style = true) (hpos : LineIndex.startsLine doc.text pos = true)
    (hout : pos ≤ (doc.wholeLines span).start ∨ (doc.wholeLines span).stop < pos) :
    Memory.before (Haskell.colour keywords span doc) (doc.lineOf pos) = .before doc (doc.lineOf pos) := by
  have hstates := (framed_colour keywords hdoc hloose).2.2
  unfold Memory.before Document.lineStateAbove?
  split
  . next hline =>
    have hsame : (Haskell.colour keywords span doc).lineStates[doc.lineOf pos - 1]? = doc.lineStates[doc.lineOf pos - 1]? := by
      apply hstates
      rcases hout with hfront | hbehind
      . have hle := hdoc.lineOf_mono hfront
        left
        omega
      . have hsize : pos ≤ doc.size := le_size_of_startsLine hpos
        have hle := hdoc.lineOf_mono (show (doc.wholeLines span).stop ≤ pos - 1 by omega)
        have hlt := hdoc.lineOf_pred_lt hpos (by omega)
        right
        omega
    rw [Document.lineState, Document.lineState, hsame]
  . rfl

/--
A pass leaves the line starts as ones to go on at, in front of its lines, among them and behind them.
-/
theorem colour (keywords : Keywords) (hstart : Resumable doc start) (length : Nat) (hpos : Resumable doc pos) :
    Resumable (colour keywords ⟨start, length, doc.styleBefore start⟩ doc) pos := by
  have hloose : Haskell.loose (doc.wholeLines ⟨start, length, doc.styleBefore start⟩).style = true := by
    rw [style_wholeLines hdoc hstart.startsLine]
    exact hstart.loose
  obtain ⟨hsame, _, hstates⟩ := framed_colour keywords hdoc hloose
  refine ⟨?_, ?_, ?_⟩
  . rw [hsame.text]
    exact hpos.startsLine
  . exact loose_styleBefore_colour_of_loose keywords hdoc hloose hpos.startsLine hpos.loose
  . rw [hsame.lineOf]
    by_cases hin : (doc.wholeLines ⟨start, length, doc.styleBefore start⟩).start < pos
        ∧ pos ≤ (doc.wholeLines ⟨start, length, doc.styleBefore start⟩).stop
    . obtain ⟨u, hrun, _, hbefore, hline⟩ := exists_lineEnd keywords hdoc hloose hpos.startsLine hin.1 hin.2
      have hu := (hstart.sensible_ofSpan hdoc length).of_iterates hrun
      intro hblock
      rw [Memory.before, hline]
      exact Memory.one_le_extra_unpack (hu.depth (hbefore.symm.trans hblock))
    . rw [styleBefore_colour_of_outside keywords hdoc hloose (by omega), before_colour_of_outside hdoc keywords hloose hpos.startsLine (by omega)]
      exact hpos.depth

end Resumable

theorem Passes.resumable {lines : Nat → Prop} {doc' : Document} (h : Passes lines doc doc') (hdoc : doc.WellFormed)
    (hlines : ∀ pos, lines pos → Resumable doc pos) : doc'.WellFormed ∧ ∀ pos, lines pos → Resumable doc' pos := by
  induction h with
  | refl => exact ⟨hdoc, hlines⟩
  | @colour doc' keywords start length _ hstart ih =>
    obtain ⟨hdoc', hlines'⟩ := ih
    have hloose : loose (doc'.wholeLines ⟨start, length, doc'.styleBefore start⟩).style = true := by
      rw [style_wholeLines hdoc' (hlines' start hstart).startsLine]
      exact (hlines' start hstart).loose
    refine ⟨(framed_colour keywords hdoc' hloose).1.wellFormed hdoc', fun pos hpos => ?_⟩
    exact (hlines' start hstart).colour hdoc' keywords length (hlines' pos hpos)
  | setOptions options _ ih =>
    obtain ⟨hdoc', hlines'⟩ := ih
    refine ⟨⟨hdoc'.lines, hdoc'.styles, hdoc'.lineStates, hdoc'.levels⟩, fun pos hpos => ?_⟩
    exact ⟨(hlines' pos hpos).startsLine, (hlines' pos hpos).loose, (hlines' pos hpos).depth⟩

/--
Whatever passes have left of a fresh document, each started at a line start with whatever keywords and options: in a further
pass from a line start, a number is read with the base 8, 10 or 16, a name with the number of the style of a name, so that it
gets a style of words, and a block comment with a depth that is not zero. This is so between the steps and within them,
when the open token has ended or gone on.
-/
theorem number_read_as_set (text : Array UInt8) (encoding : Encoding) (options : Options)
    (h : Passes (startsLine text · = true) (.fresh text encoding options) doc) {pos : Nat} (hpos : startsLine text pos = true)
    (length : Nat) (keywords : Keywords)
    (hrun : Iterates (·.cursor.more) (Scan.step (.read keywords doc.options)) (.ofSpan ⟨pos, length, doc.styleBefore pos⟩ doc) s) :
    s.Sensible ∧ (s.left (.read keywords doc.options)).Sensible
      ∧ (s.cursor.state = Style.identifier →
        let settings := Settings.read keywords doc.options
        let behind := s.storeLines.skipName settings.magicHash
        IsNameStyle behind.memory.extra
          ∧ ∃ style ∈ wordStyles, (s.left settings).cursor = (behind.cursor.changeState style).setState Style.default) := by
  obtain ⟨hdoc, hlines⟩ := h.resumable (Document.wellFormed_fresh text encoding options) fun _ hpos => resumable_fresh hpos
  have hs := ((hlines pos hpos).sensible_ofSpan hdoc length).of_iterates hrun
  refine ⟨hs, (hs.step _).1, ?_⟩
  intro hname settings behind
  have hstate : s.storeLines.cursor.state = Style.identifier := s.state_storeLines.trans hname
  have hextra := hs.storeLines.name hstate
  refine ⟨Scan.isNameStyle_skipName settings.magicHash hextra, ?_⟩
  have hleft : s.left settings = s.storeLines.leaveIdentifier settings := by
    unfold Scan.left Scan.leave
    dsimp only
    rw [hstate]
    rfl
  rw [hleft]
  exact Scan.exists_wordStyle hextra settings

/--
The second line of a block comment, which a pass over the first line has left open, and the steps into a comment in it.
-/
theorem number_read_as_set_in_comment :
    let text := "\x7b-0\n\x7b-1-\x7d".toUTF8.data
    let doc := colour #[] ⟨0, 4, Style.default⟩ (.fresh text .utf8 .empty)
    let settings := Settings.read #[] doc.options
    let s := (Scan.ofSpan ⟨4, 5, doc.styleBefore 4⟩ doc).step settings
    startsLine text 4 = true ∧ s.cursor.state = Style.commentBlock ∧ s.memory.extra = 2 ∧ s.Sensible ∧ (s.left settings).Sensible := by
  intro text doc settings s
  have hline : startsLine text 4 = true := by decide
  have hmore : (Scan.ofSpan ⟨4, 5, doc.styleBefore 4⟩ doc).cursor.more = true := by decide +kernel
  have hpasses : Passes (startsLine text · = true) (.fresh text .utf8 .empty) doc := .colour #[] 4 .refl (by decide)
  obtain ⟨hs, hleft, _⟩ := number_read_as_set text .utf8 .empty hpasses hline 5 #[] (.head hmore (.refl s))
  exact ⟨hline, by decide +kernel, by decide +kernel, hs, hleft⟩

end Highlight.Haskell
