import Highlight.Proofs.Document.Lines

/-!
Where an edit and the text behind it come together.

An edit looks its line up in the text it was asked for, and where that line starts in the text it makes. These
are the same line unless the edit brings a line feed behind a carriage return: then the two are one terminator,
the line that started between them is gone, and its number is that of the line behind.
-/

namespace Highlight

namespace LineIndex

/--
Whether a line starts at `pos` in `text`, behind a carriage return alone, and `text'` has a line feed there.
-/
def Joins (text text' : Array UInt8) (pos : Nat) : Prop :=
  0 < pos ∧ text[pos - 1]? = some 0x0D ∧ text[pos]? ≠ some 0x0A ∧ text'[pos]? = some 0x0A

instance (text text' : Array UInt8) (pos : Nat) : Decidable (Joins text text' pos) :=
  inferInstanceAs (Decidable (_ ∧ _))

theorem not_joins_self (text : Array UInt8) (pos : Nat) : ¬ Joins text text pos :=
  fun h => h.2.2.1 h.2.2.2

section Front

variable {text text' : Array UInt8} {pos : Nat} (hfront : ∀ i : Nat, i < pos → text'[i]? = text[i]?)
include hfront

theorem startsLine_of_lt {p : Nat} (hp : p < pos) : startsLine text' p = startsLine text p := by
  cases p with
  | zero => rw [startsLine_zero, startsLine_zero]
  | succ p => rw [startsLine_succ, startsLine_succ, endsLine, endsLine, hfront p (by omega), hfront (p + 1) hp]

theorem breaksBefore_of_lt {p : Nat} (hp : p < pos) : breaksBefore text' p = breaksBefore text p := by
  induction p with
  | zero => rw [breaksBefore_zero, breaksBefore_zero]
  | succ p ih => rw [breaksBefore_succ, breaksBefore_succ, ih (by omega), startsLine_of_lt hfront hp]

theorem joins_iff : Joins text text' pos ↔ startsLine text pos = true ∧ startsLine text' pos = false := by
  cases pos with
  | zero => simp [Joins, startsLine_zero]
  | succ pos =>
    have hlast := hfront pos (Nat.lt_succ_self pos)
    rw [startsLine_succ, startsLine_succ, endsLine, endsLine, hlast, Joins, Nat.add_sub_cancel]
    split <;> grind

theorem breaksBefore_of_joins (h : Joins text text' pos) : breaksBefore text pos = breaksBefore text' pos + 1 := by
  obtain ⟨hstart, hnostart⟩ := (joins_iff hfront).mp h
  obtain ⟨p, rfl⟩ : ∃ p, pos = p + 1 := Nat.exists_eq_add_one.mpr h.1
  rw [breaksBefore_succ, breaksBefore_succ, hstart, hnostart, breaksBefore_of_lt hfront (Nat.lt_succ_self p)]
  rfl

theorem breaksBefore_le_of_not_joins (h : ¬ Joins text text' pos) : breaksBefore text pos ≤ breaksBefore text' pos := by
  rw [joins_iff hfront] at h
  cases pos with
  | zero => rw [breaksBefore_zero]; exact Nat.zero_le _
  | succ pos =>
    rw [breaksBefore_succ, breaksBefore_succ, breaksBefore_of_lt hfront (Nat.lt_succ_self pos)]
    cases hstart : startsLine text (pos + 1) <;> cases hstart' : startsLine text' (pos + 1) <;> simp_all

end Front

variable {text : Array UInt8} {start stop pos : Nat}

/--
Behind a line feed the next line starts.
-/
theorem lineStart_succ_of_feed (h : text[pos]? = some 0x0A) : (ofText text).lineStart (breaksBefore text pos + 1) = pos + 1 := by
  have hstart : startsLine text (pos + 1) = true := by
    rw [startsLine_succ, endsLine, h]
    rfl
  have hline : breaksBefore text (pos + 1) = breaksBefore text pos + 1 := by rw [breaksBefore_succ, hstart]; rfl
  rw [← hline]
  exact lineStart_of_startsLine hstart

theorem breakOf_eq_endsLine (text : Array UInt8) (pos : Nat) (h : pos < text.size) :
    breakOf text[pos] (text.toList.drop (pos + 1)).head? = if endsLine text pos then 1 else 0 := by
  unfold breakOf endsLine
  rw [List.head?_drop, Array.getElem?_toList, Array.getElem?_eq_getElem h]
  grind

/--
A text has the terminators that end up to a position, and those of what is behind it.
-/
theorem countBreaks_eq_add_drop (text : Array UInt8) (hpos : pos ≤ text.size) :
    countBreaks text.toList = breaksBefore text pos + countBreaks (text.toList.drop pos) := by
  induction pos with
  | zero => rw [breaksBefore_zero, List.drop_zero, Nat.zero_add]
  | succ pos ih =>
    have hlt : pos < text.toList.length := hpos
    rw [ih (by omega), List.drop_eq_getElem_cons hlt, countBreaks, Array.getElem_toList, breakOf_eq_endsLine text pos hpos,
      breaksBefore_succ, startsLine_succ, Nat.add_assoc]

/--
What is behind a part that is taken out keeps its terminators.
-/
theorem count_delete_add (text : Array UInt8) (hstart : start ≤ stop) (hstop : stop ≤ text.size) :
    (ofText (splice text start stop #[])).count + breaksBefore text stop
      = (ofText text).count + breaksBefore (splice text start stop #[]) start := by
  have hsize : start ≤ (splice text start stop #[]).size := by
    rw [size_splice _ _ _ _ hstart hstop]
    omega
  have hlength : (text.toList.take start).length = start := by
    rw [List.length_take, Array.length_toList, Nat.min_eq_left (Nat.le_trans hstart hstop)]
  have hdrop : (splice text start stop #[]).toList.drop start = text.toList.drop stop := by
    rw [toList_splice, List.append_nil, List.drop_append_of_le_length (Nat.le_of_eq hlength.symm),
      List.drop_eq_nil_of_le (Nat.le_of_eq hlength), List.nil_append]
  rw [count_eq_countBreaks, count_eq_countBreaks, countBreaks_eq_add_drop (splice text start stop #[]) hsize, hdrop,
    countBreaks_eq_add_drop text hstop]
  omega

end LineIndex

section Splice

variable {α : Type} {entries : Array α} {start stop : Nat}

theorem getElem?_splice_of_ge (new : Array α) {i : Nat} (hi : stop ≤ i) (hstart : start ≤ stop) (hsize : start ≤ entries.size) :
    (splice entries start stop new)[i - (stop - start) + new.size]? = entries[i]? := by
  have hlength : (entries.toList.take start ++ new.toList).length = start + new.size := by
    rw [List.length_append, List.length_take, Array.length_toList, Array.length_toList, Nat.min_eq_left hsize]
  rw [← Array.getElem?_toList, toList_splice, List.getElem?_append_right (by rw [hlength]; omega), hlength, List.getElem?_drop,
    Array.getElem?_toList]
  congr 1
  omega

end Splice

namespace Document

open LineIndex

variable {doc doc' : Document} {pos : Nat}

/--
A position behind the end stands on the last line.
-/
theorem lineOf_min (hdoc : doc.WellFormed) (pos : Nat) : doc.lineOf (min pos doc.size) = doc.lineOf pos := by
  rw [hdoc.lineOf_eq, hdoc.lineOf_eq]
  rcases Nat.le_total pos doc.size with hle | hle
  . rw [Nat.min_eq_left hle]
  . rw [Nat.min_eq_right hle]
    refine (breaksBefore_eq_of_no_start hle fun p hp _ => ?_).symm
    rw [Bool.eq_false_iff]
    exact fun hstart => Nat.not_le_of_lt hp (le_size_of_startsLine hstart)

/--
How far the styles of a document stay valid when an edit at `pos` makes `doc'` of it: no further than to the start
of the edited line, and where the edit joins two terminators, up to the joined one.
-/
structure PulledBack (doc doc' : Document) (pos : Nat) : Prop where
  le_lineStart : ¬ Joins doc.text doc'.text pos → doc'.endStyled ≤ doc'.lineStart (doc'.lineOf pos)
  of_joins : Joins doc.text doc'.text pos → doc'.endStyled = min doc.endStyled (pos + 1)

theorem pulledBack_of_front (hdoc : doc.WellFormed) (hdoc' : doc'.WellFormed)
    (hfront : ∀ i : Nat, i < pos → doc'.text[i]? = doc.text[i]?)
    (hend : doc'.endStyled = min doc.endStyled (doc'.lineStart (doc.lineOf pos))) : doc.PulledBack doc' pos where
  le_lineStart hjoins := by
    rw [hend, hdoc.lineOf_eq, hdoc'.lineOf_eq, hdoc'.lineStart_eq, hdoc'.lineStart_eq]
    exact Nat.le_trans (Nat.min_le_right _ _) (lineStart_mono (breaksBefore_le_of_not_joins hfront hjoins))
  of_joins hjoins := by
    rw [hend, hdoc.lineOf_eq, breaksBefore_of_joins hfront hjoins, hdoc'.lineStart_eq, lineStart_succ_of_feed hjoins.2.2.2]

theorem pulledBack_insert (hdoc : doc.WellFormed) (pos : Nat) (bytes : Array UInt8) :
    doc.PulledBack (doc.insert pos bytes) (min pos doc.size) := by
  refine pulledBack_of_front hdoc (wellFormed_insert hdoc pos bytes) (fun i hi => ?_) rfl
  exact getElem?_splice_of_lt hi (Nat.min_le_right _ _)

theorem pulledBack_delete (hdoc : doc.WellFormed) {start stop : Nat} (h : min start (min stop doc.size) < min stop doc.size) :
    doc.PulledBack (doc.delete start stop) (min start (min stop doc.size)) := by
  have hwell := wellFormed_delete hdoc start stop
  have hstop : min stop doc.size ≤ doc.text.size := Nat.min_le_right _ _
  unfold delete at hwell ⊢
  dsimp only at hwell ⊢
  generalize min stop doc.size = stop at *
  generalize min start stop = start at *
  have hne : ¬ (start == stop) = true := by
    rw [beq_iff_eq]
    omega
  rw [if_neg hne] at hwell ⊢
  refine pulledBack_of_front hdoc hwell (fun i hi => ?_) rfl
  exact getElem?_splice_of_lt hi (by omega)

/--
After an edit of at least one byte the styles are valid no further than to the start of the edited line, unless the
edit brings a line feed behind a carriage return: then they may stay valid up to that line feed.
-/
theorem edits_pull_back (hdoc : doc.WellFormed) :
    (∀ (pos : Nat) (bytes : Array UInt8), 0 < bytes.size → doc.PulledBack (doc.insert pos bytes) (min pos doc.size))
      ∧ ∀ start stop : Nat, min start (min stop doc.size) < min stop doc.size →
        doc.PulledBack (doc.delete start stop) (min start (min stop doc.size)) :=
  ⟨fun pos bytes _ => pulledBack_insert hdoc pos bytes, fun _ _ => pulledBack_delete hdoc⟩

/--
Two lines that are styled: a line feed at the start of the second one keeps the styles of the first one, and what
is taken out at the front keeps none.
-/
theorem edits_pull_back_lines :
    let doc := (ofText #[0x61, 0x0A, 0x62]).setEndStyled 3
    let inserted := doc.insert 2 #[0x0A]
    let deleted := doc.delete 0 1
    inserted.endStyled ≤ inserted.lineStart (inserted.lineOf 2) ∧ deleted.endStyled ≤ deleted.lineStart (deleted.lineOf 0) := by
  have hdoc := (consistent_ofText #[0x61, 0x0A, 0x62]).apply (.setEndStyled 3)
  obtain ⟨hinsert, hdelete⟩ := edits_pull_back hdoc.wellFormed
  refine ⟨?_, ?_⟩
  . have h := hinsert 2 #[0x0A] (by decide)
    exact h.le_lineStart (by decide +kernel)
  . have h := hdelete 0 1 (by decide)
    exact h.le_lineStart (by decide +kernel)

/--
A line feed that is inserted behind a carriage return counts as styled when what it moves was styled.
-/
theorem endStyled_insert_behind_return :
    let doc := (ofText #[0x61, 0x0D, 0x62]).setEndStyled 3
    let doc' := doc.insert 2 #[0x0A]
    ¬ doc'.endStyled ≤ doc'.lineStart (doc'.lineOf (min 2 doc.size)) := by
  decide +kernel

/--
What is stored for line `l'` of `doc'` is what is stored for line `l` of `doc`.
-/
structure SameLine (doc doc' : Document) (l l' : Nat) : Prop where
  lineState : doc'.lineStates[l']? = doc.lineStates[l]?
  level : doc'.levels[l']? = doc.levels[l]?

theorem SameLine.refl (doc : Document) (l : Nat) : doc.SameLine doc l l :=
  ⟨rfl, rfl⟩

/--
The lines up to that of an insertion stay where they are, those behind it go on by as many as there are new ones.
-/
theorem sameLine_insert (hdoc : doc.WellFormed) (pos : Nat) (bytes : Array UInt8) (l : Nat) :
    (l ≤ doc.lineOf pos → doc.SameLine (doc.insert pos bytes) l l)
      ∧ (doc.lineOf pos < l → doc.SameLine (doc.insert pos bytes) l (l + ((doc.insert pos bytes).lineCount - doc.lineCount))) := by
  rw [← lineOf_min hdoc pos]
  have hlt := hdoc.lineOf_lt (min pos doc.size)
  have hstates := hdoc.lineStates
  have hlevels := hdoc.levels
  unfold lineCount at hlt hstates hlevels ⊢
  unfold insert
  dsimp only
  generalize min pos doc.size = pos at *
  have hbelow : min (doc.lineOf pos + 1) doc.lineStates.size = doc.lineOf pos + 1 := Nat.min_eq_left (by omega)
  rw [hbelow]
  constructor
  . intro hl
    exact ⟨getElem?_splice_of_lt (by omega) (by omega), getElem?_splice_of_lt (by omega) (by omega)⟩
  . intro hl
    have hafter {α : Type} (entries : Array α) (added : Nat) (new : α) (hsize : entries.size = doc.lines.count) :
        (splice entries (doc.lineOf pos + 1) (doc.lineOf pos + 1) (.replicate added new))[l + added]? = entries[l]? := by
      have h := getElem?_splice_of_ge (.replicate added new) (show doc.lineOf pos + 1 ≤ l from hl) (Nat.le_refl _)
        (show doc.lineOf pos + 1 ≤ entries.size by omega)
      rwa [Nat.sub_self, Nat.sub_zero, Array.size_replicate] at h
    exact ⟨hafter _ _ _ hstates, hafter _ _ _ hlevels⟩

theorem lineCount_le_insert (hdoc : doc.WellFormed) (pos : Nat) (bytes : Array UInt8) :
    doc.lineCount ≤ (doc.insert pos bytes).lineCount := by
  rw [lineCount, lineCount, hdoc.lines, (wellFormed_insert hdoc pos bytes).lines]
  exact count_le_count_insert doc.text bytes (min pos doc.size)

theorem delete_of_le {start stop : Nat} (h : min stop doc.size ≤ start) : doc.delete start stop = doc :=
  if_pos (beq_iff_eq.mpr (Nat.min_eq_right h))

theorem delete_text {start stop : Nat} (h : start < min stop doc.size) :
    (doc.delete start stop).text = splice doc.text start (min stop doc.size) #[] := by
  unfold delete
  dsimp only
  rw [Nat.min_eq_left (Nat.le_of_lt h), if_neg (by rw [beq_iff_eq]; omega)]
  rfl

section Delete

variable (hdoc : doc.WellFormed) {start stop : Nat} (h : start < min stop doc.size)
include hdoc h

theorem lineOf_lt_delete : doc.lineOf start < (doc.delete start stop).lineCount := by
  have hlt := lineOf_lt_count_delete doc.text (min stop doc.size) (show start ≤ doc.text.size by rw [size] at h; omega)
  rwa [← hdoc.lines, ← delete_text h, ← (wellFormed_delete hdoc start stop).lines] at hlt

theorem lineCount_delete_le : (doc.delete start stop).lineCount ≤ doc.lineCount := by
  have hcount := count_delete_le_count doc.text (Nat.le_of_lt h)
  rwa [← hdoc.lines, ← delete_text h, ← (wellFormed_delete hdoc start stop).lines] at hcount

/--
A deletion takes as many lines as there are from its first line, in the text it makes, to its last one.
-/
theorem lineCount_delete_add :
    (doc.delete start stop).lineCount + doc.lineOf stop = doc.lineCount + (doc.delete start stop).lineOf start := by
  have hwell := wellFormed_delete hdoc start stop
  have hcount := count_delete_add doc.text (Nat.le_of_lt h) (Nat.min_le_right _ _)
  rw [← lineOf_min hdoc stop, hdoc.lineOf_eq, hwell.lineOf_eq, lineCount, lineCount, hdoc.lines, hwell.lines, delete_text h]
  exact hcount

/--
The stores of the lines lose the entries right behind that of the first line.
-/
theorem delete_stores :
    let line := doc.lineOf start
    let lost := doc.lineCount - (doc.delete start stop).lineCount
    (doc.delete start stop).lineStates = splice doc.lineStates (line + 1) (line + 1 + lost) #[]
      ∧ (doc.delete start stop).levels = splice doc.levels (line + 1) (line + 1 + lost) #[] := by
  have hline := lineOf_lt_delete hdoc h
  have hfewer := lineCount_delete_le hdoc h
  have hstates := hdoc.lineStates
  have hfirst : min (doc.lineOf start + 1) doc.lineStates.size = doc.lineOf start + 1 := by omega
  have hlast : min (doc.lineOf start + 1 + (doc.lineCount - (doc.delete start stop).lineCount)) doc.lineStates.size
      = doc.lineOf start + 1 + (doc.lineCount - (doc.delete start stop).lineCount) := by omega
  dsimp only
  rw [← hlast]
  unfold lineCount
  rw [(wellFormed_delete hdoc start stop).lines, delete_text h]
  unfold delete
  dsimp only
  rw [Nat.min_eq_left (Nat.le_of_lt h), if_neg (by rw [beq_iff_eq]; omega), hfirst]
  exact ⟨rfl, rfl⟩

theorem sameLine_delete_front {l : Nat} (hl : l ≤ doc.lineOf start) : doc.SameLine (doc.delete start stop) l l := by
  obtain ⟨hstates, hlevels⟩ := delete_stores hdoc h
  have hline := hdoc.lineOf_lt start
  rw [← hdoc.lineStates] at hline
  have hsize := hdoc.levels.trans hdoc.lineStates.symm
  refine ⟨?_, ?_⟩
  . rw [hstates]
    exact getElem?_splice_of_lt (by omega) (by omega)
  . rw [hlevels]
    exact getElem?_splice_of_lt (by omega) (by omega)

theorem sameLine_delete_rest {l : Nat} (hl : doc.lineOf start + (doc.lineCount - (doc.delete start stop).lineCount) < l) :
    doc.SameLine (doc.delete start stop) l (l - (doc.lineCount - (doc.delete start stop).lineCount)) := by
  obtain ⟨hstates, hlevels⟩ := delete_stores hdoc h
  have hline := hdoc.lineOf_lt start
  rw [← hdoc.lineStates] at hline
  have hsize := hdoc.levels.trans hdoc.lineStates.symm
  generalize doc.lineCount - (doc.delete start stop).lineCount = lost at *
  have hback {α : Type} (entries : Array α) (hlt : doc.lineOf start < entries.size) :
      (splice entries (doc.lineOf start + 1) (doc.lineOf start + 1 + lost) #[])[l - lost]? = entries[l]? := by
    have hrest := getElem?_splice_of_ge #[] (show doc.lineOf start + 1 + lost ≤ l by omega) (Nat.le_add_right _ _) hlt
    rwa [Nat.add_sub_cancel_left, Array.size_empty, Nat.add_zero] at hrest
  refine ⟨?_, ?_⟩
  . rw [hstates]
    exact hback _ hline
  . rw [hlevels]
    exact hback _ (by omega)

end Delete

/--
The lines up to that of a deletion stay where they are, those behind its last one go back by as many as are lost.
When the deletion joins two terminators, the line right behind its last one has got what was stored for its first.
-/
theorem sameLine_delete (hdoc : doc.WellFormed) (start stop : Nat) :
    let doc' := doc.delete start stop
    let lost := doc.lineCount - doc'.lineCount
    (∀ l, l ≤ doc.lineOf start → doc.SameLine doc' l l)
      ∧ (∀ l, doc.lineOf stop < l → ¬ (Joins doc.text doc'.text start ∧ l = doc.lineOf stop + 1) → doc.SameLine doc' l (l - lost))
      ∧ (Joins doc.text doc'.text start → doc.SameLine doc' (doc.lineOf start) (doc.lineOf stop + 1 - lost)) := by
  dsimp only
  rcases Nat.lt_or_ge start (min stop doc.size) with h | hge
  . have hcount := lineCount_delete_add hdoc h
    have hfewer := lineCount_delete_le hdoc h
    have hfront : ∀ i : Nat, i < start → (doc.delete start stop).text[i]? = doc.text[i]? := by
      intro i hi
      rw [delete_text h]
      exact getElem?_splice_of_lt hi (by rw [size] at h; omega)
    have hjoined := breaksBefore_of_joins hfront
    have hparted := breaksBefore_le_of_not_joins hfront
    rw [← hdoc.lineOf_eq, ← (wellFormed_delete hdoc start stop).lineOf_eq] at hjoined hparted
    refine ⟨fun l => sameLine_delete_front hdoc h, fun l hl hnot => sameLine_delete_rest hdoc h ?_, fun hjoins => ?_⟩
    . by_cases hjoins : Joins doc.text (doc.delete start stop).text start
      . have := hjoined hjoins
        have : l ≠ doc.lineOf stop + 1 := fun heq => hnot ⟨hjoins, heq⟩
        omega
      . have := hparted hjoins
        omega
    . have heq : doc.lineOf stop + 1 - (doc.lineCount - (doc.delete start stop).lineCount) = doc.lineOf start := by
        have := hjoined hjoins
        omega
      rw [heq]
      exact sameLine_delete_front hdoc h (Nat.le_refl _)
  . rw [delete_of_le hge, Nat.sub_self]
    exact ⟨fun l _ => .refl doc l, fun l _ _ => .refl doc l, fun hjoins => absurd hjoins (not_joins_self _ _)⟩

/--
What is stored for a line follows it through edits: the lines up to that of the edit stay where they are, and those
behind its last line move by as many as are won or lost. The one line that a deletion does not carry along is the
one right behind its last line, and only when a line feed there comes behind a carriage return.
-/
theorem lines_follow_edits (hdoc : doc.WellFormed) :
    (∀ (pos : Nat) (bytes : Array UInt8),
      let doc' := doc.insert pos bytes
      let gained := doc'.lineCount - doc.lineCount
      doc.lineCount ≤ doc'.lineCount
        ∧ (∀ l, l ≤ doc.lineOf pos → doc.SameLine doc' l l)
        ∧ ∀ l, doc.lineOf pos < l → doc.SameLine doc' l (l + gained))
      ∧ ∀ start stop : Nat,
        let doc' := doc.delete start stop
        let lost := doc.lineCount - doc'.lineCount
        doc'.lineCount ≤ doc.lineCount
          ∧ (∀ l, l ≤ doc.lineOf start → doc.SameLine doc' l l)
          ∧ (∀ l, doc.lineOf stop < l → ¬ (Joins doc.text doc'.text start ∧ l = doc.lineOf stop + 1) → doc.SameLine doc' l (l - lost))
          ∧ (Joins doc.text doc'.text start → doc.SameLine doc' (doc.lineOf start) (doc.lineOf stop + 1 - lost)) := by
  constructor
  . intro pos bytes
    have hsame := sameLine_insert hdoc pos bytes
    exact ⟨lineCount_le_insert hdoc pos bytes, fun l => (hsame l).1, fun l => (hsame l).2⟩
  . intro start stop
    refine ⟨?_, sameLine_delete hdoc start stop⟩
    rcases Nat.lt_or_ge start (min stop doc.size) with h | hge
    . exact lineCount_delete_le hdoc h
    . exact Nat.le_of_eq (congrArg lineCount (delete_of_le hge))

/--
The state of the last of four lines goes on by a line when a line feed comes in on the second one, and back by a line
when the terminator of the second one goes.
-/
theorem lines_follow_edits_last :
    let doc := (ofText #[0x61, 0x0A, 0x62, 0x0A, 0x63, 0x0A, 0x64]).setLineState 3 9
    doc.SameLine (doc.insert 2 #[0x0A]) 3 4 ∧ doc.SameLine (doc.delete 3 4) 3 2 := by
  have hdoc := (consistent_ofText #[0x61, 0x0A, 0x62, 0x0A, 0x63, 0x0A, 0x64]).apply (.setLineState 3 9)
  obtain ⟨hinsert, hdelete⟩ := lines_follow_edits hdoc.wellFormed
  refine ⟨?_, ?_⟩
  . have h := (hinsert 2 #[0x0A]).2.2 3 (by decide +kernel)
    have hcounts : ((((ofText #[0x61, 0x0A, 0x62, 0x0A, 0x63, 0x0A, 0x64]).setLineState 3 9).insert 2 #[0x0A]).lineCount
        - ((ofText #[0x61, 0x0A, 0x62, 0x0A, 0x63, 0x0A, 0x64]).setLineState 3 9).lineCount) = 1 := by decide +kernel
    rwa [Change.apply, hcounts] at h
  . have h := (hdelete 3 4).2.2.1 3 (by decide +kernel) (by decide +kernel)
    have hcounts : (((ofText #[0x61, 0x0A, 0x62, 0x0A, 0x63, 0x0A, 0x64]).setLineState 3 9).lineCount
        - (((ofText #[0x61, 0x0A, 0x62, 0x0A, 0x63, 0x0A, 0x64]).setLineState 3 9).delete 3 4).lineCount) = 1 := by decide +kernel
    rwa [Change.apply, hcounts] at h

/--
What is stored for the line behind a deletion is lost when the deletion takes what stands between a carriage
return and a line feed.
-/
theorem lineState_delete_behind_return :
    let doc := (((ofText #[0x61, 0x0D, 0x58, 0x0A, 0x62]).setLineState 0 7).setLineState 1 8).setLineState 2 9
    let doc' := doc.delete 2 3
    doc.lineOf 3 < 2 ∧ doc'.lineState (2 - (doc.lineCount - doc'.lineCount)) ≠ doc.lineState 2 := by
  decide +kernel

end Document

end Highlight
