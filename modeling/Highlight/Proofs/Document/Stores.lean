import Highlight.Document.Edit
import Highlight.Proofs.Document.Marks
import Highlight.Proofs.Text.LineIndex

/-!
What a document stores beside its text, under changes: one style for each byte, one state and one level for
each line, and where the lines start.

An edit patches the states and the levels by the difference of two line counts. The counts fit because a text
has no fewer lines than what is left of it when a part is taken out, whatever carriage returns and line feeds
come together at the seam.
-/

namespace Highlight

section Splice

variable {α : Type} {entries new : Array α} {start stop : Nat}

theorem toList_splice (entries : Array α) (start stop : Nat) (new : Array α) :
    (splice entries start stop new).toList = entries.toList.take start ++ new.toList ++ entries.toList.drop stop := by
  have hrest : (entries.toList.drop stop).length ≤ entries.size - stop :=
    Nat.le_of_eq (by rw [List.length_drop, Array.length_toList])
  simp [splice, List.extract_eq_take_drop, List.take_of_length_le hrest]

end Splice

namespace LineIndex

/--
The terminators that a byte in front of `next?` ends: one or none.
-/
def breakOf (b : UInt8) (next? : Option UInt8) : Nat :=
  if b == 0x0A || b == 0x0D && next? != some 0x0A then 1 else 0

/--
The number of line terminators in a list of bytes.
-/
def countBreaks (bytes : List UInt8) : Nat :=
  match bytes with
  | [] => 0
  | b :: bytes => breakOf b bytes.head? + countBreaks bytes

/--
A carriage return may end a line only if another byte than `next` comes behind it, but then `next` is a line
feed and ends one itself.
-/
theorem breakOf_le_add (b next : UInt8) (next? next?' : Option UInt8) :
    breakOf b next? ≤ breakOf b (some next) + breakOf next next?' := by
  by_cases hfeed : next = 0x0A
  . have hnext : breakOf next next?' = 1 := by simp [breakOf, hfeed]
    rw [hnext, breakOf]
    split <;> omega
  . have hle : breakOf b next? ≤ breakOf b (some next) := by
      simp only [breakOf, Bool.or_eq_true, Bool.and_eq_true, beq_iff_eq, bne_iff_ne, ne_eq, Option.some.injEq, hfeed,
        not_false_eq_true, and_true]
      split
      . next h => exact Nat.le_of_eq (if_pos (h.imp_right And.left)).symm
      . exact Nat.zero_le _
    omega

theorem countBreaks_le_append (gone rest : List UInt8) : countBreaks rest ≤ countBreaks (gone ++ rest) := by
  induction gone with
  | nil => exact Nat.le_refl _
  | cons b gone ih => exact Nat.le_add_left_of_le ih

/--
Taking a part out of a text makes no line.
-/
theorem countBreaks_append_le (front gone rest : List UInt8) :
    countBreaks (front ++ rest) ≤ countBreaks (front ++ gone ++ rest) := by
  induction front with
  | nil => exact countBreaks_le_append gone rest
  | cons b front ih =>
    cases front with
    | cons b' front => exact Nat.add_le_add_left ih _
    | nil =>
      cases gone with
      | nil => exact Nat.le_refl _
      | cons next gone =>
        have hb := breakOf_le_add b next rest.head? (gone ++ rest).head?
        have hrest := countBreaks_le_append gone rest
        simp only [List.cons_append, List.nil_append, countBreaks, List.head?_cons]
        omega

theorem breaksBefore_toArray (bytes : List UInt8) : breaksBefore bytes.toArray bytes.length = countBreaks bytes := by
  induction bytes with
  | nil => rfl
  | cons b bytes ih =>
    have hfirst : (if endsLine (b :: bytes).toArray 0 then 1 else 0) = breakOf b bytes.head? := by
      unfold endsLine breakOf
      cases bytes <;> grind
    have hrest : endsLine (b :: bytes).toArray ∘ Nat.succ = endsLine bytes.toArray := by
      funext pos
      simp [endsLine]
    rw [countBreaks, ← ih, ← hfirst, breaksBefore, List.length_cons, List.range_succ_eq_map, List.countP_cons, List.countP_map,
      hrest, Nat.add_comm]
    rfl

theorem count_eq_countBreaks (text : Array UInt8) : (ofText text).count = countBreaks text.toList + 1 := by
  rw [count_ofText, ← breaksBefore_toArray, Array.length_toList]

/--
A text has the terminators of each part at its front, which may end in the middle of one.
-/
theorem breaksBefore_le_countBreaks (text : Array UInt8) (pos : Nat) (hpos : pos ≤ text.size) :
    breaksBefore text pos ≤ countBreaks (text.toList.take pos) := by
  have hlength : (text.toList.take pos).length = pos := by
    rw [List.length_take, Array.length_toList, Nat.min_eq_left hpos]
  rw [← breaksBefore_toArray, hlength]
  refine List.countP_mono_left fun i hi => ?_
  have hi := List.mem_range.mp hi
  unfold endsLine
  grind

variable {text : Array UInt8} {start stop : Nat}

theorem count_le_count_insert (text bytes : Array UInt8) (pos : Nat) :
    (ofText text).count ≤ (ofText (splice text pos pos bytes)).count := by
  have hle := countBreaks_append_le (text.toList.take pos) bytes.toList (text.toList.drop pos)
  rw [List.take_append_drop] at hle
  rw [count_eq_countBreaks, count_eq_countBreaks, toList_splice]
  omega

theorem count_delete_le_count (text : Array UInt8) (hstart : start ≤ stop) :
    (ofText (splice text start stop #[])).count ≤ (ofText text).count := by
  have hle := countBreaks_append_le (text.toList.take start) ((text.toList.drop start).take (stop - start)) (text.toList.drop stop)
  have hparts : text.toList.drop stop = (text.toList.drop start).drop (stop - start) := by
    rw [List.drop_drop, Nat.add_sub_cancel' hstart]
  rw [hparts, List.append_assoc, List.take_append_drop, List.take_append_drop, ← hparts] at hle
  rw [count_eq_countBreaks, count_eq_countBreaks, toList_splice, List.append_nil]
  omega

/--
The line that a part is taken out of is still there.
-/
theorem lineOf_lt_count_delete (text : Array UInt8) (stop : Nat) (hstart : start ≤ text.size) :
    (ofText text).lineOf start < (ofText (splice text start stop #[])).count := by
  have hfront := breaksBefore_le_countBreaks text start hstart
  have hle := countBreaks_append_le (text.toList.take start) (text.toList.drop stop) []
  rw [List.append_nil, List.append_nil] at hle
  rw [lineOf_ofText, count_eq_countBreaks, toList_splice, List.append_nil]
  omega

end LineIndex

namespace Document

open LineIndex

/--
What is stored beside the text fits to it, and no style past its end is taken for valid.
-/
structure Consistent (doc : Document) : Prop where
  wellFormed : doc.WellFormed
  endStyled_le : doc.endStyled ≤ doc.size

variable {doc : Document}

theorem consistent_ofText (text : Array UInt8) : (ofText text).Consistent :=
  ⟨wellFormed_ofText text, Nat.zero_le _⟩

theorem Consistent.of_sameSource {doc' : Document} (h : doc.Consistent) (hsame : doc.SameSource doc') : doc'.Consistent :=
  ⟨hsame.wellFormed h.wellFormed, by rw [hsame.endStyled, hsame.size]; exact h.endStyled_le⟩

theorem wellFormed_insert (hdoc : doc.WellFormed) (pos : Nat) (bytes : Array UInt8) : (doc.insert pos bytes).WellFormed := by
  have hpos : min pos doc.size ≤ doc.size := Nat.min_le_right _ _
  unfold insert
  dsimp only
  generalize min pos doc.size = pos at *
  have hcount := count_le_count_insert doc.text bytes pos
  rw [← hdoc.lines] at hcount
  have hstates := hdoc.lineStates
  have hlevels := hdoc.levels
  unfold lineCount at hstates hlevels
  have hbelow : min (doc.lineOf pos + 1) doc.lineStates.size ≤ doc.lineStates.size := Nat.min_le_right _ _
  refine ⟨rfl, ?_, ?_, ?_⟩
  . show (splice doc.styles pos pos _).size = (splice doc.text pos pos bytes).size
    rw [size_splice _ _ _ _ (Nat.le_refl _) (Nat.le_trans hpos (Nat.le_of_eq hdoc.styles.symm)), size_splice _ _ _ _ (Nat.le_refl _) hpos,
      Array.size_replicate, hdoc.styles, size]
  . show (splice doc.lineStates _ _ _).size = (LineIndex.ofText _).count
    rw [size_splice _ _ _ _ (Nat.le_refl _) hbelow, Array.size_replicate]
    omega
  . show (splice doc.levels _ _ _).size = (LineIndex.ofText _).count
    rw [size_splice _ _ _ _ (Nat.le_refl _) (by omega), Array.size_replicate]
    omega

theorem wellFormed_delete (hdoc : doc.WellFormed) (start stop : Nat) : (doc.delete start stop).WellFormed := by
  have hstop : min stop doc.size ≤ doc.size := Nat.min_le_right _ _
  unfold delete
  dsimp only
  generalize min stop doc.size = stop at *
  have hstart : min start stop ≤ stop := Nat.min_le_right _ _
  generalize min start stop = start at *
  split
  . exact hdoc
  . have hcount := count_delete_le_count doc.text hstart
    have hline := lineOf_lt_count_delete doc.text stop (Nat.le_trans hstart hstop)
    rw [← hdoc.lines] at hcount hline
    have hstates := hdoc.lineStates
    have hlevels := hdoc.levels
    unfold lineCount at hstates hlevels
    unfold lineOf
    refine ⟨rfl, ?_, ?_, ?_⟩
    . show (splice doc.styles start stop #[]).size = (splice doc.text start stop #[]).size
      rw [size_splice _ _ _ _ hstart (Nat.le_trans hstop (Nat.le_of_eq hdoc.styles.symm)), size_splice _ _ _ _ hstart hstop, hdoc.styles, size]
    . show (splice doc.lineStates _ _ #[]).size = (LineIndex.ofText _).count
      rw [size_splice _ _ _ _ (by omega) (Nat.min_le_right _ _), Array.size_empty]
      omega
    . show (splice doc.levels _ _ #[]).size = (LineIndex.ofText _).count
      rw [size_splice _ _ _ _ (by omega) (by omega), Array.size_empty]
      omega

theorem endStyled_insert_le (doc : Document) (pos : Nat) (bytes : Array UInt8) :
    (doc.insert pos bytes).endStyled ≤ (doc.insert pos bytes).size :=
  Nat.le_trans (Nat.min_le_right _ _) (lineStart_le_size _)

theorem endStyled_delete_le (h : doc.endStyled ≤ doc.size) (start stop : Nat) :
    (doc.delete start stop).endStyled ≤ (doc.delete start stop).size := by
  unfold delete
  dsimp only
  split
  . exact h
  . exact Nat.le_trans (Nat.min_le_right _ _) (lineStart_le_size _)

/--
A change of a document that a caller can ask for, with any arguments.
-/
inductive Change where
  | insert (pos : Nat) (bytes : Array UInt8)
  | delete (start stop : Nat)
  | setText (text : Array UInt8)
  | setStyles (start stop : Nat) (style : Style)
  | setLineState (line : Nat) (state : LineState)
  | setLevel (line : Nat) (level : Level)
  | setEndStyled (pos : Nat)
  deriving DecidableEq, Repr

def Change.apply (doc : Document) (change : Change) : Document :=
  match change with
  | .insert pos bytes => doc.insert pos bytes
  | .delete start stop => doc.delete start stop
  | .setText text => doc.setText text
  | .setStyles start stop style => doc.setStyles start stop style
  | .setLineState line state => doc.setLineState line state
  | .setLevel line level => doc.setLevel line level
  | .setEndStyled pos => doc.setEndStyled pos

theorem Consistent.apply (h : doc.Consistent) (change : Change) : (change.apply doc).Consistent := by
  cases change with
  | insert pos bytes => exact ⟨wellFormed_insert h.wellFormed pos bytes, endStyled_insert_le doc pos bytes⟩
  | delete start stop => exact ⟨wellFormed_delete h.wellFormed start stop, endStyled_delete_le h.endStyled_le start stop⟩
  | setText text => exact ⟨wellFormed_fresh text doc.encoding doc.options, Nat.zero_le _⟩
  | setStyles start stop style => exact h.of_sameSource (sameSource_setStyles doc start stop style)
  | setLineState line state => exact h.of_sameSource (sameSource_setLineState doc line state)
  | setLevel line level => exact h.of_sameSource (sameSource_setLevel doc line level)
  | setEndStyled pos => exact ⟨{ h.wellFormed with }, Nat.min_le_right _ _⟩

theorem Consistent.applyAll (h : doc.Consistent) (changes : List Change) : (changes.foldl Change.apply doc).Consistent := by
  induction changes generalizing doc with
  | nil => exact h
  | cons change changes ih => exact ih (h.apply change)

/--
Whatever is changed in a document, there is one style for each byte and one state and one level for each line
of its text, the lines are those of the text, and the styles taken for valid end in it.
-/
theorem stores_fit_text (text : Array UInt8) (changes : List Change) :
    let doc := changes.foldl Change.apply (ofText text)
    doc.styles.size = doc.text.size ∧ doc.lineStates.size = doc.lineCount ∧ doc.levels.size = doc.lineCount
      ∧ doc.lines = LineIndex.ofText doc.text ∧ doc.endStyled ≤ doc.text.size := by
  have h := (consistent_ofText text).applyAll changes
  exact ⟨h.wellFormed.styles, h.wellFormed.lineStates, h.wellFormed.levels, h.wellFormed.lines, h.endStyled_le⟩

end Document

end Highlight
