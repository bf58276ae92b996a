import Highlight.Proofs.Document.Lines

/-!
Documents that show the same up to a limit, which is a line start of both or the end of both. What is looked up
in front of the limit is the same in both of them, and it does not go beyond the end of a line.
-/

namespace Highlight

open LineIndex

namespace Document

/--
How many lines have a byte in front of `pos`.
-/
def linesTo (doc : Document) (pos : Nat) : Nat :=
  if pos = 0 then 0 else doc.lineOf (pos - 1) + 1

section LinesTo

variable {doc : Document} {i pos : Nat} (hdoc : doc.WellFormed)
include hdoc

theorem WellFormed.lineOf_mono {pos pos' : Nat} (h : pos ≤ pos') : doc.lineOf pos ≤ doc.lineOf pos' := by
  rw [hdoc.lineOf_eq, hdoc.lineOf_eq]
  exact breaksBefore_mono h

theorem WellFormed.lineOf_lt_linesTo (h : i < pos) : doc.lineOf i < doc.linesTo pos := by
  rw [linesTo, if_neg (by omega)]
  exact Nat.lt_succ_of_le (hdoc.lineOf_mono (by omega))

theorem WellFormed.linesTo_of_startsLine (h : startsLine doc.text pos = true) : doc.linesTo pos = doc.lineOf pos := by
  cases pos with
  | zero => rw [linesTo, if_pos rfl, hdoc.lineOf_zero]
  | succ pos =>
    rw [startsLine_succ] at h
    rw [linesTo, if_neg (Nat.succ_ne_zero pos), Nat.add_sub_cancel, hdoc.lineOf_succ, h, if_pos rfl]

theorem WellFormed.lineOf_pred_lt (h : startsLine doc.text pos = true) (hpos : 0 < pos) : doc.lineOf (pos - 1) < doc.lineOf pos := by
  rw [← hdoc.linesTo_of_startsLine h]
  exact hdoc.lineOf_lt_linesTo (Nat.sub_lt hpos Nat.one_pos)

theorem WellFormed.lineOf_lineFloor (pos : Nat) : doc.lineOf (lineFloor doc.text pos) = doc.lineOf pos := by
  obtain ⟨hle, _, hno⟩ := lineFloor_spec doc.text pos
  rw [hdoc.lineOf_eq, hdoc.lineOf_eq, breaksBefore_eq_of_no_start hle hno]

theorem WellFormed.eq_zero_of_lineOf_eq_zero (h : startsLine doc.text pos = true) (hline : doc.lineOf pos = 0) : pos = 0 := by
  apply Nat.eq_zero_of_not_pos
  intro hpos
  have := hdoc.lineOf_pred_lt h hpos
  omega

/--
In front of the end of the first line, no line ends.
-/
theorem WellFormed.endsLine_of_lineOf_eq_zero (h : doc.lineOf pos = 0) (hi : i < pos) : endsLine doc.text i = false := by
  have hle := hdoc.lineOf_mono (show i + 1 ≤ pos from hi)
  have hsucc := hdoc.lineOf_succ i
  cases hends : endsLine doc.text i with
  | false => rfl
  | true =>
    rw [hends, if_pos rfl] at hsucc
    omega

theorem WellFormed.linesTo_mono {pos pos' : Nat} (h : pos ≤ pos') : doc.linesTo pos ≤ doc.linesTo pos' := by
  unfold linesTo
  split
  . exact Nat.zero_le _
  . rw [if_neg (by omega)]
    exact Nat.succ_le_succ (hdoc.lineOf_mono (by omega))

theorem WellFormed.linesTo_le (pos : Nat) : doc.linesTo pos ≤ doc.lineCount := by
  unfold linesTo
  split
  . exact Nat.zero_le _
  . exact hdoc.lineOf_lt _

theorem WellFormed.lineCount_eq : doc.lineCount = doc.lineOf doc.size + 1 := by
  rw [hdoc.lineOf_eq, Document.lineCount, hdoc.lines, count_ofText]
  rfl

/--
A line that starts in front of a position has a byte there.
-/
theorem WellFormed.lt_linesTo_of_lineStart_lt {line : Nat} (h : doc.lineStart line < pos) (hpos : pos ≤ doc.size) : line < doc.linesTo pos := by
  rw [hdoc.lineStart_eq] at h
  have hline : line < (LineIndex.ofText doc.text).count := by
    apply Nat.lt_of_not_le
    intro hle
    rw [lineStart_of_count_le hle] at h
    exact absurd hpos (Nat.not_le_of_lt h)
  obtain ⟨start, _, hbefore, heq⟩ := exists_startsLine hline
  rw [heq] at h
  have hlt := hdoc.lineOf_lt_linesTo h
  rwa [hdoc.lineOf_eq, hbefore] at hlt

end LinesTo

/--
Two documents that show the same in front of `limit`. Only if this is `storing`, their lines have the same states
there.
-/
structure AlikeUpTo (storing : Prop) (limit : Nat) (doc doc' : Document) : Prop where
  wellFormed : doc.WellFormed
  wellFormed' : doc'.WellFormed
  not_mem : 0x0D ∉ doc.text
  not_mem' : 0x0D ∉ doc'.text
  options : doc'.options = doc.options
  ends : startsLine doc.text limit = true ∧ startsLine doc'.text limit = true ∨ doc.size = limit ∧ doc'.size = limit
  text : ∀ i : Nat, i < limit → doc'.text[i]? = doc.text[i]?
  styles : ∀ i : Nat, i < limit → doc'.styles[i]? = doc.styles[i]?
  lineStates : storing → ∀ l : Nat, l < doc.linesTo limit → doc'.lineStates[l]? = doc.lineStates[l]?

namespace AlikeUpTo

variable {storing : Prop} {limit limit' pos stop stop' : Nat} {doc doc' doc'' : Document}

theorem refl (hdoc : doc.WellFormed) (hreturn : 0x0D ∉ doc.text) (hlimit : IsBoundary doc.text limit) : AlikeUpTo storing limit doc doc where
  wellFormed := hdoc
  wellFormed' := hdoc
  not_mem := hreturn
  not_mem' := hreturn
  options := rfl
  ends := hlimit.imp (fun h => ⟨h, h⟩) fun h => ⟨h.symm, h.symm⟩
  text := fun _ _ => rfl
  styles := fun _ _ => rfl
  lineStates := fun _ _ _ => rfl

/--
Nothing is in front of a text.
-/
theorem zero (hdoc : doc.WellFormed) (hdoc' : doc'.WellFormed) (hreturn : 0x0D ∉ doc.text) (hreturn' : 0x0D ∉ doc'.text)
    (hoptions : doc'.options = doc.options) : AlikeUpTo storing 0 doc doc' where
  wellFormed := hdoc
  wellFormed' := hdoc'
  not_mem := hreturn
  not_mem' := hreturn'
  options := hoptions
  ends := .inl ⟨startsLine_zero, startsLine_zero⟩
  text := fun i hi => absurd hi (Nat.not_lt_zero i)
  styles := fun i hi => absurd hi (Nat.not_lt_zero i)
  lineStates := fun _ l hl => absurd hl (Nat.not_lt_zero l)

section Front

variable (h : AlikeUpTo storing limit doc doc')
include h

theorem startsLine_eq (hpos : pos ≤ limit) : startsLine doc'.text pos = startsLine doc.text pos :=
  startsLine_congr h.not_mem h.not_mem' h.text hpos

theorem endsLine_eq (hpos : pos < limit) : endsLine doc'.text pos = endsLine doc.text pos := by
  rw [← startsLine_succ, ← startsLine_succ, h.startsLine_eq hpos]

theorem lineFloor_eq (hpos : pos ≤ limit) : lineFloor doc'.text pos = lineFloor doc.text pos := by
  obtain ⟨hle, hstart, hno⟩ := lineFloor_spec doc.text pos
  refine LineIndex.lineFloor_eq hle ?_ fun p hp hp' => ?_
  . rw [h.startsLine_eq (Nat.le_trans hle hpos), hstart]
  . rw [h.startsLine_eq (Nat.le_trans hp' hpos), hno p hp hp']

theorem lineOf_eq (hpos : pos ≤ limit) : doc'.lineOf pos = doc.lineOf pos := by
  rw [h.wellFormed.lineOf_eq, h.wellFormed'.lineOf_eq, breaksBefore_congr h.not_mem h.not_mem' h.text hpos]

theorem linesTo_eq (hpos : pos ≤ limit) : doc'.linesTo pos = doc.linesTo pos := by
  unfold linesTo
  rw [h.lineOf_eq (show pos - 1 ≤ limit by omega)]

theorem le_size : limit ≤ doc.size :=
  h.ends.elim (fun hends => le_size_of_startsLine hends.1) fun hends => Nat.le_of_eq hends.1.symm

theorem isBoundary : IsBoundary doc.text limit :=
  h.ends.imp And.left fun hends => hends.1.symm

theorem symm : AlikeUpTo storing limit doc' doc where
  wellFormed := h.wellFormed'
  wellFormed' := h.wellFormed
  not_mem := h.not_mem'
  not_mem' := h.not_mem
  options := h.options.symm
  ends := h.ends.imp And.symm And.symm
  text := fun i hi => (h.text i hi).symm
  styles := fun i hi => (h.styles i hi).symm
  lineStates := by
    intro hstoring l hl
    rw [h.linesTo_eq (Nat.le_refl limit)] at hl
    exact (h.lineStates hstoring l hl).symm

theorem trans (h' : AlikeUpTo storing limit doc' doc'') : AlikeUpTo storing limit doc doc'' where
  wellFormed := h.wellFormed
  wellFormed' := h'.wellFormed'
  not_mem := h.not_mem
  not_mem' := h'.not_mem'
  options := h'.options.trans h.options
  ends := by
    have hstart := h'.startsLine_eq (Nat.le_refl limit)
    rcases h.ends with ⟨hends, hends'⟩ | ⟨hends, hends'⟩
    . exact .inl ⟨hends, hstart.trans hends'⟩
    . rcases h'.ends with ⟨hstart₁, hstart₂⟩ | ⟨_, hsize⟩
      . exact .inl ⟨h.startsLine_eq (Nat.le_refl limit) ▸ hstart₁, hstart₂⟩
      . exact .inr ⟨hends, hsize⟩
  text := fun i hi => (h'.text i hi).trans (h.text i hi)
  styles := fun i hi => (h'.styles i hi).trans (h.styles i hi)
  lineStates := by
    intro hstoring l hl
    rw [h'.lineStates hstoring l (by rwa [h.linesTo_eq (Nat.le_refl limit)]), h.lineStates hstoring l hl]

/--
What is shown up to a limit is shown up to each line start in front of it.
-/
theorem restrict (hle : limit' ≤ limit) (hstart : startsLine doc.text limit' = true) : AlikeUpTo storing limit' doc doc' where
  wellFormed := h.wellFormed
  wellFormed' := h.wellFormed'
  not_mem := h.not_mem
  not_mem' := h.not_mem'
  options := h.options
  ends := .inl ⟨hstart, by rw [h.startsLine_eq hle, hstart]⟩
  text := fun i hi => h.text i (by omega)
  styles := fun i hi => h.styles i (by omega)
  lineStates := fun hstoring l hl => h.lineStates hstoring l (Nat.lt_of_lt_of_le hl (h.wellFormed.linesTo_mono hle))

theorem setEndStyled (pos : Nat) : AlikeUpTo storing limit doc (doc'.setEndStyled pos) :=
  have hdoc' := h.wellFormed'
  ⟨h.wellFormed, ⟨hdoc'.lines, hdoc'.styles, hdoc'.lineStates, hdoc'.levels⟩, h.not_mem, h.not_mem', h.options, h.ends, h.text,
    h.styles, h.lineStates⟩

/--
Two passes that go on behind the limit do so from a line start.
-/
theorem stops (hstop : limit ≤ stop) (hsize : stop ≤ doc.size) (hstop' : limit ≤ stop') (hsize' : stop' ≤ doc'.size) :
    startsLine doc.text limit = true ∧ startsLine doc'.text limit = true ∨ stop = limit ∧ stop' = limit :=
  h.ends.imp_right fun hends => by omega

end Front

/--
A position at which two documents show the same: one in front of the limit, or any if they end there.
-/
def Shown (limit : Nat) (doc doc' : Document) (pos : Nat) : Prop :=
  pos < limit ∨ doc.size = limit ∧ doc'.size = limit

section Shown

variable (h : AlikeUpTo storing limit doc doc') (hpos : Shown limit doc doc' pos)
include h hpos

/--
Behind a byte that ends no line there is one more that is shown.
-/
theorem shown_succ (hinner : endsLine doc.text pos = false) : Shown limit doc doc' (pos + 1) := by
  rcases hpos with hlt | hsize
  . rcases h.ends with ⟨hstart, _⟩ | hsize
    . left
      apply Nat.lt_of_le_of_ne hlt
      rintro rfl
      rw [startsLine_succ, hinner] at hstart
      cases hstart
    . exact .inr hsize
  . exact .inr hsize

theorem text_eq : doc'.text[pos]? = doc.text[pos]? := by
  rcases Nat.lt_or_ge pos limit with hlt | hge
  . exact h.text pos hlt
  . obtain ⟨hsize, hsize'⟩ := hpos.resolve_left (Nat.not_lt_of_le hge)
    rw [Document.size] at hsize hsize'
    rw [Array.getElem?_eq_none (by omega), Array.getElem?_eq_none (by omega)]

theorem byteAt (fallback : UInt8) : doc'.byteAt pos fallback = doc.byteAt pos fallback := by
  rw [Document.byteAt, Document.byteAt, h.text_eq hpos]

theorem styleAt : doc'.styleAt pos = doc.styleAt pos := by
  rw [Document.styleAt, Document.styleAt]
  rcases Nat.lt_or_ge pos limit with hlt | hge
  . rw [h.styles pos hlt]
  . obtain ⟨hsize, hsize'⟩ := hpos.resolve_left (Nat.not_lt_of_le hge)
    have hstyles := h.wellFormed.styles
    have hstyles' := h.wellFormed'.styles
    rw [Array.getElem?_eq_none (by omega), Array.getElem?_eq_none (by omega)]

/--
Bytes of which only the last one can end a line are found in both or in none.
-/
theorem holdsAt {bytes : List UInt8} (hbytes : 0x0A ∉ bytes.dropLast) : doc'.holdsAt pos bytes = doc.holdsAt pos bytes := by
  induction bytes generalizing pos with
  | nil => rfl
  | cons b bytes ih =>
    rw [Document.holdsAt, Document.holdsAt, byteAt?, byteAt?, h.text_eq hpos]
    cases hbyte : doc.text[pos]? == some b with
    | false => rfl
    | true =>
      cases bytes with
      | nil => rfl
      | cons b' bytes =>
        rw [List.dropLast_cons_cons, List.mem_cons, not_or] at hbytes
        have hinner : endsLine doc.text pos = false := by
          rw [endsLine_of_not_mem h.not_mem, beq_iff_eq.mp hbyte]
          exact beq_false_of_ne fun heq => hbytes.1 (Option.some.inj heq).symm
        rw [ih (h.shown_succ hpos hinner) hbytes.2]

theorem matchesAt {s : String} (hbytes : 0x0A ∉ (Utf8.encode s).dropLast) : doc'.matchesAt pos s = doc.matchesAt pos s :=
  h.holdsAt hpos hbytes

end Shown

section Front

variable (h : AlikeUpTo storing limit doc doc')
include h

theorem bytes {start stop : Nat} (hstop : ∀ i : Nat, start ≤ i → i < stop → i < limit) : doc'.bytes start stop = doc.bytes start stop := by
  have hsize := h.le_size
  have hsize' := h.symm.le_size
  rw [Document.size] at hsize hsize'
  apply Array.ext_getElem?
  intro i
  rw [Document.bytes, Document.bytes, Array.getElem?_extract, Array.getElem?_extract]
  rcases Nat.lt_or_ge (start + i) stop with hlt | hge
  . have hi := hstop (start + i) (Nat.le_add_right start i) hlt
    rw [if_pos (by omega), if_pos (by omega), h.text _ hi]
  . rw [if_neg (by omega), if_neg (by omega)]

theorem styleBefore (hpos : pos ≤ limit) : doc'.styleBefore pos = doc.styleBefore pos :=
  styleBefore_congr fun i hi => h.styles i (by omega)

theorem lineState (hstoring : storing) {line : Nat} (hline : line < doc.linesTo limit) : doc'.lineState line = doc.lineState line := by
  rw [Document.lineState, Document.lineState, h.lineStates hstoring line hline]

theorem lineStateAbove? (hstoring : storing) {line : Nat} (hline : line < doc.linesTo limit) :
    doc'.lineStateAbove? line = doc.lineStateAbove? line := by
  unfold Document.lineStateAbove?
  rw [h.lineState hstoring (show line - 1 < doc.linesTo limit by omega)]

end Front

end AlikeUpTo

/--
An edit leaves what is in front of it.
-/
theorem Edited.alikeUpTo {doc doc' : Document} {front : Nat} (h : doc.Edited doc' front) (hdoc : doc.WellFormed)
    (hreturn : 0x0D ∉ doc.text) {storing : Prop} : doc.AlikeUpTo storing front doc' where
  wellFormed := hdoc
  wellFormed' := h.wellFormed
  not_mem := hreturn
  not_mem' := h.not_mem
  options := h.options
  ends := .inl ⟨h.startsLine, by rw [startsLine_congr hreturn h.not_mem h.text (Nat.le_refl front), h.startsLine]⟩
  text := h.text
  styles := h.styles
  lineStates := by
    intro _ l hl
    rw [hdoc.linesTo_of_startsLine h.startsLine] at hl
    exact h.lineStates l hl

end Document

end Highlight
