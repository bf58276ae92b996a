import Highlight.Proofs.Document.Edit

/-!
The lines of a text: what each of them holds and how it ends. Laid end to end, with their terminators, they are the text.

The end of a line is looked for backwards from where the next line starts, over a line feed first and then over a carriage
return. This finds the whole terminator and no more of the line, since a carriage return that stands in front of a line feed
ends no line.
-/

namespace Highlight

namespace LineIndex

variable {text : Array UInt8} {index : LineIndex} {line start last next : Nat}

theorem lineStart_mono {line line' : Nat} (h : line ≤ line') :
    (ofText text).lineStart line ≤ (ofText text).lineStart line' := by
  rcases Nat.lt_or_ge line' (ofText text).count with hlt | hge
  . obtain ⟨p, hstart, rfl, heq⟩ := exists_startsLine hlt
    rw [heq]
    apply Nat.le_of_not_lt
    intro hgt
    have hcount := exists_startsLine (Nat.lt_of_le_of_lt h hlt)
    obtain ⟨p', hstart', rfl, heq'⟩ := hcount
    rw [heq'] at hgt
    exact Nat.not_le_of_lt (breaksBefore_lt hgt hstart') h
  . rw [lineStart_of_count_le hge]
    exact lineStart_le_size line

theorem lineStart_lt {line line' : Nat} (hlt : line < line') (hcount : line' < (ofText text).count) :
    (ofText text).lineStart line < (ofText text).lineStart line' := by
  obtain ⟨start, hstart, rfl, heq⟩ := exists_startsLine hcount
  rw [heq, lineStart_lt_iff hstart, lineOf_ofText]
  exact hlt

/--
The bytes of a line stand between its start and that of the next one.
-/
theorem lineOf_eq_iff {pos : Nat} (hpos : pos < text.size) :
    (ofText text).lineOf pos = line ↔ (ofText text).lineStart line ≤ pos ∧ pos < (ofText text).lineStart (line + 1) := by
  have hlast : pos < (ofText text).lineStart ((ofText text).lineOf pos + 1) := by
    rw [lineOf_ofText]
    rcases next_lineStart_cases pos (Nat.le_of_lt hpos) with ⟨next, hlt, _, _, _, hnext⟩ | ⟨_, _, hend⟩
    . rw [hnext]
      exact hlt
    . rw [hend]
      exact hpos
  constructor
  . rintro rfl
    exact ⟨lineFloor_le text pos, hlast⟩
  . rintro ⟨hle, hlt⟩
    apply Nat.le_antisymm
    . exact Nat.le_of_not_lt fun hover => Nat.not_le_of_lt hlt (lineStart_succ_le hover)
    . refine Nat.le_of_not_lt fun hunder => ?_
      exact Nat.not_le_of_lt hlast (Nat.le_trans (lineStart_mono (Nat.succ_le_of_lt hunder)) hle)

theorem lineOf_of_size_le {pos : Nat} (hpos : text.size ≤ pos) : (ofText text).lineOf pos + 1 = (ofText text).count := by
  rw [lineOf_ofText, count_ofText, breaksBefore_eq_of_no_start hpos]
  intro p hp _
  rw [Bool.eq_false_iff]
  exact fun hstart => Nat.not_le_of_lt hp (le_size_of_startsLine hstart)

theorem endsLine_iff_byte {pos : Nat} : endsLine text pos = true
    ↔ text[pos]? = some 0x0A ∨ text[pos]? = some 0x0D ∧ text[pos + 1]? ≠ some 0x0A := by
  unfold endsLine
  split
  . next hfeed => simp [hfeed]
  . next hreturn => simp [hreturn]
  . next hfeed hreturn =>
    have hne : text[pos]? ≠ some 0x0A := hfeed
    have hne' : text[pos]? ≠ some 0x0D := hreturn
    simp [hne, hne']

theorem return_ne_feed : (some 0x0D : Option UInt8) ≠ some 0x0A := by
  decide

/--
Bytes in which no terminator ends hold no line feed, and a carriage return only as the last of them.
-/
theorem byte_of_no_break (hno : ∀ i, start ≤ i → i + 1 < next → endsLine text i = false) {i : Nat}
    (hle : start ≤ i) (hlt : i + 1 < next) :
    text[i]? ≠ some 0x0A ∧ (text[i]? = some 0x0D → text[i + 1]? = some 0x0A ∧ i + 2 = next) := by
  have hends := hno i hle hlt
  rw [Bool.eq_false_iff, ne_eq, endsLine_iff_byte] at hends
  refine ⟨fun hfeed => hends (.inl hfeed), ?_⟩
  intro hreturn
  have hfeed : text[i + 1]? = some 0x0A := by
    apply Decidable.byContradiction
    intro hne
    exact hends (.inr ⟨hreturn, hne⟩)
  refine ⟨hfeed, ?_⟩
  -- That line feed ends a line, so it is the last byte.
  apply Decidable.byContradiction
  intro hmore
  have hinner := hno (i + 1) (by omega) (by omega)
  rw [endsLine_iff_byte.mpr (.inl hfeed)] at hinner
  cases hinner

section LineEnd

-- What stands in front of the next line decides how far its end is looked for backwards.
variable (hstart : index.lineStart line = start)
include hstart

theorem lineEnd_of_feed (hnext : index.lineStart (line + 1) = last + 1) (hle : start ≤ last) (hfeed : text[last]? = some 0x0A)
    (halone : start < last → text[last - 1]? ≠ some 0x0D) : index.lineEnd text line = last := by
  have hlt : start < last + 1 := Nat.lt_succ_of_le hle
  have hother : (decide (start < last) && text[last - 1]? == some 0x0D) = false := by
    rw [Bool.and_eq_false_imp, decide_eq_true_eq]
    intro hlt
    exact beq_eq_false_iff_ne.mpr (halone hlt)
  simp only [lineEnd, hstart, hnext, hlt, Nat.add_sub_cancel, hfeed, decide_true, BEq.rfl, Bool.and_self, if_true, hother,
    Bool.false_eq_true, if_false]

theorem lineEnd_of_pair (hnext : index.lineStart (line + 1) = last + 2) (hle : start ≤ last)
    (hreturn : text[last]? = some 0x0D) (hfeed : text[last + 1]? = some 0x0A) : index.lineEnd text line = last := by
  have hlt : start < last + 2 := by omega
  have hlt' : start < last + 1 := by omega
  simp only [lineEnd, hstart, hnext, hlt, show last + 2 - 1 = last + 1 by omega, hfeed, decide_true, BEq.rfl, Bool.and_self,
    if_true, hlt', Nat.add_sub_cancel, hreturn]

theorem lineEnd_of_lone (hnext : index.lineStart (line + 1) = last + 1) (hle : start ≤ last)
    (hreturn : text[last]? = some 0x0D) : index.lineEnd text line = last := by
  have hlt : start < last + 1 := Nat.lt_succ_of_le hle
  simp only [lineEnd, hstart, hnext, hlt, Nat.add_sub_cancel, hreturn, decide_true, BEq.rfl, Bool.and_self, if_true,
    beq_eq_false_iff_ne.mpr return_ne_feed, Bool.and_false, Bool.false_eq_true, if_false]

theorem lineEnd_of_open (hnext : index.lineStart (line + 1) = next)
    (hopen : start < next → text[next - 1]? ≠ some 0x0A ∧ text[next - 1]? ≠ some 0x0D) : index.lineEnd text line = next := by
  have hnone {b : UInt8} (hb : start < next → text[next - 1]? ≠ some b) :
      (decide (start < next) && text[next - 1]? == some b) = false := by
    rw [Bool.and_eq_false_imp, decide_eq_true_eq]
    intro hlt
    exact beq_eq_false_iff_ne.mpr (hb hlt)
  simp only [lineEnd, hstart, hnext, hnone fun hlt => (hopen hlt).1, Bool.false_eq_true, if_false, hnone fun hlt => (hopen hlt).2]

end LineEnd

/--
The three forms of a terminator that starts at `stop`, and where the next line starts behind it.
-/
inductive Terminated (text : Array UInt8) (stop : Nat) : Nat → Prop where
  | feed : text[stop]? = some 0x0A → Terminated text stop (stop + 1)
  | pair : text[stop]? = some 0x0D → text[stop + 1]? = some 0x0A → Terminated text stop (stop + 2)
  | lone : text[stop]? = some 0x0D → text[stop + 1]? ≠ some 0x0A → Terminated text stop (stop + 1)

theorem Terminated.bytes {stop : Nat} (h : Terminated text stop next) : stop < next
    ∧ ∀ i, stop ≤ i → i < next → text[i]? = some 0x0A ∨ text[i]? = some 0x0D := by
  cases h with
  | feed hfeed =>
    refine ⟨Nat.lt_succ_self stop, fun i hle hi => ?_⟩
    rw [show i = stop by omega]
    exact .inl hfeed
  | pair hreturn hfeed =>
    refine ⟨by omega, fun i hle hi => ?_⟩
    rcases Nat.eq_or_lt_of_le hle with rfl | hlt
    . exact .inr hreturn
    . rw [show i = stop + 1 by omega]
      exact .inl hfeed
  | lone hreturn hlone =>
    refine ⟨Nat.lt_succ_self stop, fun i hle hi => ?_⟩
    rw [show i = stop by omega]
    exact .inr hreturn

/--
The bytes of the line that starts at `start` stand up to `stop`, and none of them is a line feed or a carriage return.
-/
structure Holds (text : Array UInt8) (start stop : Nat) : Prop where
  le : start ≤ stop
  byte : ∀ i, start ≤ i → i < stop → text[i]? ≠ some 0x0A ∧ text[i]? ≠ some 0x0D

/--
In front of its terminator, a line holds no part of one.
-/
theorem holds_of_no_break {stop : Nat} (hno : ∀ i, start ≤ i → i + 1 < next → endsLine text i = false) (hle : start ≤ stop)
    (hlt : stop < next)
    (hwhole : stop + 1 = next → start < stop → text[stop - 1]? = some 0x0D → text[stop]? ≠ some 0x0A) :
    Holds text start stop where
  le := hle
  byte i hi hi' := by
    obtain ⟨hfeed, hreturn⟩ := byte_of_no_break hno hi (by omega)
    refine ⟨hfeed, fun heq => ?_⟩
    obtain ⟨hpair, hlast⟩ := hreturn heq
    obtain rfl : stop = i + 1 := by omega
    exact hwhole (by omega) (by omega) heq hpair

/--
A line that is not the last one ends with a terminator.
-/
theorem terminated_lineEnd (hline : line + 1 < (ofText text).count) :
    Holds text ((ofText text).lineStart line) ((ofText text).lineEnd text line)
      ∧ Terminated text ((ofText text).lineEnd text line) ((ofText text).lineStart (line + 1)) := by
  obtain ⟨start, hbegins, hbefore, hstart⟩ := exists_startsLine (Nat.lt_of_succ_lt hline)
  rcases next_lineStart_cases start (le_size_of_startsLine hbegins) with ⟨next, hlt, hbreak, hnone, _, hnext⟩ | ⟨_, hcount, _⟩
  . rw [hbefore] at hnext
    obtain ⟨last, rfl⟩ : ∃ last, next = last + 1 := ⟨next - 1, by omega⟩
    have hle : start ≤ last := Nat.le_of_lt_succ hlt
    rw [startsLine_succ] at hbreak
    have hno : ∀ i, start ≤ i → i + 1 < last + 1 → endsLine text i = false := by
      intro i hi hi'
      rw [← startsLine_succ]
      exact hnone (i + 1) (by omega) hi'
    rw [hnext, hstart]
    rcases endsLine_iff_byte.mp hbreak with hfeed | ⟨hreturn, hlone⟩
    . by_cases hpair : start < last ∧ text[last - 1]? = some 0x0D
      . obtain ⟨first, rfl⟩ : ∃ first, last = first + 1 := ⟨last - 1, by omega⟩
        rw [lineEnd_of_pair hstart hnext (by omega) hpair.2 hfeed]
        exact ⟨holds_of_no_break hno (by omega) (by omega) (by omega), .pair hpair.2 hfeed⟩
      . rw [lineEnd_of_feed hstart hnext hle hfeed fun hlt heq => hpair ⟨hlt, heq⟩]
        exact ⟨holds_of_no_break hno hle (Nat.lt_succ_self _) fun _ hlt heq => absurd ⟨hlt, heq⟩ hpair, .feed hfeed⟩
    . rw [lineEnd_of_lone hstart hnext hle hreturn]
      refine ⟨holds_of_no_break hno hle (Nat.lt_succ_self _) fun _ _ _ => ?_, .lone hreturn hlone⟩
      rw [hreturn]
      exact return_ne_feed
  . omega

/--
The last line ends with the text.
-/
theorem lineEnd_last (hline : line + 1 = (ofText text).count) : (ofText text).lineEnd text line = text.size
    ∧ Holds text ((ofText text).lineStart line) text.size := by
  obtain ⟨start, hbegins, hbefore, hstart⟩ := exists_startsLine (Nat.lt_of_succ_le (Nat.le_of_eq hline))
  have hnext : (ofText text).lineStart (line + 1) = text.size := lineStart_of_count_le (Nat.le_of_eq hline.symm)
  have hsize := le_size_of_startsLine hbegins
  rcases next_lineStart_cases start hsize with ⟨next, _, _, _, hcount, _⟩ | ⟨hnone, _, _⟩
  . omega
  . have hno : ∀ i, start ≤ i → i + 1 < text.size + 2 → endsLine text i = false := by
      intro i hi _
      rw [← startsLine_succ]
      exact hnone (i + 1) (by omega)
    have hholds : Holds text start text.size := holds_of_no_break hno hsize (by omega) (by omega)
    rw [hstart]
    exact ⟨lineEnd_of_open hstart hnext fun hlt => hholds.byte (text.size - 1) (by omega) (by omega), hholds⟩

theorem lineEnd_of_count_le (hline : (ofText text).count ≤ line) : (ofText text).lineEnd text line = text.size := by
  have hstart : (ofText text).lineStart line = text.size := lineStart_of_count_le hline
  have hnext : (ofText text).lineStart (line + 1) = text.size := lineStart_of_count_le (Nat.le_succ_of_le hline)
  exact lineEnd_of_open hstart hnext fun hlt => absurd hlt (Nat.lt_irrefl _)

/--
The bytes of `line` without its terminator.
-/
def content (index : LineIndex) (text : Array UInt8) (line : Nat) : List UInt8 :=
  (text.extract (index.lineStart line) (index.lineEnd text line)).toList

/--
The bytes that `line` ends with.
-/
def terminator (index : LineIndex) (text : Array UInt8) (line : Nat) : List UInt8 :=
  (text.extract (index.lineEnd text line) (index.lineStart (line + 1))).toList

theorem holds_lineEnd (text : Array UInt8) (line : Nat) :
    Holds text ((ofText text).lineStart line) ((ofText text).lineEnd text line) := by
  rcases Nat.lt_trichotomy (line + 1) (ofText text).count with hlt | heq | hgt
  . exact (terminated_lineEnd hlt).1
  . obtain ⟨hend, hholds⟩ := lineEnd_last heq
    rwa [hend]
  . rw [lineEnd_of_count_le (Nat.le_of_lt_succ hgt), lineStart_of_count_le (Nat.le_of_lt_succ hgt)]
    exact ⟨Nat.le_refl _, fun i hle hi => absurd hle (Nat.not_le_of_lt hi)⟩

theorem lineEnd_of_count_le_succ (hline : (ofText text).count ≤ line + 1) : (ofText text).lineEnd text line = text.size := by
  rcases Nat.eq_or_lt_of_le hline with heq | hlt
  . exact (lineEnd_last heq.symm).1
  . exact lineEnd_of_count_le (Nat.le_of_lt_succ hlt)

theorem lineEnd_le_lineStart_succ (text : Array UInt8) (line : Nat) :
    (ofText text).lineEnd text line ≤ (ofText text).lineStart (line + 1) := by
  rcases Nat.lt_or_ge (line + 1) (ofText text).count with hlt | hge
  . exact Nat.le_of_lt (terminated_lineEnd hlt).2.bytes.1
  . exact Nat.le_of_eq ((lineEnd_of_count_le_succ hge).trans (lineStart_of_count_le hge).symm)

section Extract

variable {stop : Nat}

theorem getElem?_of_mem_extract {b : UInt8} (hb : b ∈ (text.extract start stop).toList) :
    ∃ i, start ≤ i ∧ i < stop ∧ text[i]? = some b := by
  obtain ⟨k, hk⟩ := List.mem_iff_getElem?.mp hb
  rw [Array.getElem?_toList, Array.getElem?_extract] at hk
  split at hk
  . exact ⟨start + k, Nat.le_add_right _ _, by omega, hk⟩
  . cases hk

theorem extract_eq_cons {b : UInt8} (hb : text[start]? = some b) (hlt : start < stop) :
    (text.extract start stop).toList = b :: (text.extract (start + 1) stop).toList := by
  rw [Array.toList_extract, Array.toList_extract, List.extract_eq_take_drop, List.extract_eq_take_drop, Utf8.drop_eq_cons hb,
    show stop - start = (stop - (start + 1)) + 1 by omega, List.take_succ_cons]

theorem extract_self : (text.extract start start).toList = [] := by
  rw [Array.extract_eq_empty_of_le (Nat.min_le_left _ _)]

end Extract

theorem terminator_cases (hline : line + 1 < (ofText text).count) :
    (ofText text).terminator text line = [0x0A] ∨ (ofText text).terminator text line = [0x0D, 0x0A]
      ∨ (ofText text).terminator text line = [0x0D] ∧ text[(ofText text).lineStart (line + 1)]? ≠ some 0x0A := by
  obtain ⟨_, hends⟩ := terminated_lineEnd hline
  unfold terminator
  generalize (ofText text).lineEnd text line = stop at hends ⊢
  generalize (ofText text).lineStart (line + 1) = next at hends ⊢
  cases hends with
  | feed hfeed =>
    refine .inl ?_
    rw [extract_eq_cons hfeed (Nat.lt_succ_self _), extract_self]
  | pair hreturn hfeed =>
    refine .inr (.inl ?_)
    rw [extract_eq_cons hreturn (by omega), extract_eq_cons hfeed (Nat.lt_succ_self _), extract_self]
  | lone hreturn hlone =>
    refine .inr (.inr ⟨?_, hlone⟩)
    rw [extract_eq_cons hreturn (Nat.lt_succ_self _), extract_self]

theorem content_append_terminator (text : Array UInt8) (line : Nat) :
    (ofText text).content text line ++ (ofText text).terminator text line
      = (text.extract ((ofText text).lineStart line) ((ofText text).lineStart (line + 1))).toList := by
  have hle := (holds_lineEnd text line).le
  have hle' := lineEnd_le_lineStart_succ text line
  rw [content, terminator, ← Array.toList_append, Array.extract_append_extract, Nat.min_eq_left hle, Nat.max_eq_right hle']

theorem lineStart_zero (text : Array UInt8) : (ofText text).lineStart 0 = 0 := by
  have hfirst : (ofText text).lineStart (breaksBefore text 0) = 0 := lineStart_of_startsLine startsLine_zero
  rwa [breaksBefore_zero] at hfirst

/--
The lines in front of a line are the text up to where it starts.
-/
theorem flatMap_range (text : Array UInt8) (line : Nat) :
    (List.range line).flatMap (fun line => (ofText text).content text line ++ (ofText text).terminator text line)
      = (text.extract 0 ((ofText text).lineStart line)).toList := by
  induction line with
  | zero =>
    rw [lineStart_zero, extract_self]
    rfl
  | succ line ih =>
    have hle : (ofText text).lineStart line ≤ (ofText text).lineStart (line + 1) := lineStart_mono (Nat.le_succ line)
    rw [List.range_succ, List.flatMap_append, ih, List.flatMap_singleton, content_append_terminator, ← Array.toList_append,
      Array.extract_append_extract, Nat.zero_min, Nat.max_eq_right hle]

/--
An index partitions a text: its lines start one behind the other and cover the text, no line holds a line feed or a carriage
return, each but the last ends with one terminator, and laid end to end they are the text.
-/
structure Partitions (index : LineIndex) (text : Array UInt8) : Prop where
  lineStart_zero : index.lineStart 0 = 0
  lineStart_lt : ∀ line line', line < line' → line' < index.count → index.lineStart line < index.lineStart line'
  lineOf_eq_iff : ∀ pos < text.size, ∀ line,
    index.lineOf pos = line ↔ index.lineStart line ≤ pos ∧ pos < index.lineStart (line + 1)
  lineOf_last : ∀ pos, text.size ≤ pos → index.lineOf pos + 1 = index.count
  lineEnd_between : ∀ line, index.lineStart line ≤ index.lineEnd text line ∧ index.lineEnd text line ≤ index.lineStart (line + 1)
  content : ∀ line, ∀ b ∈ index.content text line, b ≠ 0x0A ∧ b ≠ 0x0D
  terminator : ∀ line, line + 1 < index.count → index.terminator text line = [0x0A] ∨ index.terminator text line = [0x0D, 0x0A]
    ∨ index.terminator text line = [0x0D] ∧ text[index.lineStart (line + 1)]? ≠ some 0x0A
  terminator_last : ∀ line, index.count ≤ line + 1 → index.terminator text line = []
  flatMap : (List.range index.count).flatMap (fun line => index.content text line ++ index.terminator text line) = text.toList

theorem partitions_ofText (text : Array UInt8) : (ofText text).Partitions text where
  lineStart_zero := lineStart_zero text
  lineStart_lt _ _ := lineStart_lt
  lineOf_eq_iff _ hpos _ := lineOf_eq_iff hpos
  lineOf_last _ := lineOf_of_size_le
  lineEnd_between line := ⟨(holds_lineEnd text line).le, lineEnd_le_lineStart_succ text line⟩
  content line b hb := by
    obtain ⟨i, hle, hlt, hbyte⟩ := getElem?_of_mem_extract hb
    obtain ⟨hfeed, hreturn⟩ := (holds_lineEnd text line).byte i hle hlt
    exact ⟨fun heq => hfeed (heq ▸ hbyte), fun heq => hreturn (heq ▸ hbyte)⟩
  terminator _ := terminator_cases
  terminator_last line hline := by
    rw [terminator, lineEnd_of_count_le_succ hline, lineStart_of_count_le hline, extract_self]
  flatMap := by
    rw [flatMap_range, lineStart_of_count_le (Nat.le_refl _), Array.extract_size]

end LineIndex

namespace Document

open LineIndex

variable {doc : Document} {line i : Nat}

theorem lineStart_succ_le_lineEnd (doc : Document) (line : Nat) : doc.lineStart (line + 1) ≤ doc.lineEnd line + 2 := by
  unfold Document.lineEnd LineIndex.lineEnd
  rw [← Document.lineStart, ← Document.lineStart]
  dsimp only
  split
  . split
    . omega
    . omega
  . split
    . omega
    . omega

namespace WellFormed

section Lines

variable (hdoc : doc.WellFormed)
include hdoc

theorem lineEnd_eq (line : Nat) : doc.lineEnd line = (LineIndex.ofText doc.text).lineEnd doc.text line := by
  rw [Document.lineEnd, hdoc.lines]

/--
Behind the last line, the text ends.
-/
theorem lineStart_of_lineCount_le (hline : doc.lineCount ≤ line) : doc.lineStart line = doc.size := by
  rw [hdoc.lineStart_eq, lineStart_of_count_le (by rw [← hdoc.lines]; exact hline)]
  rfl

/--
A line that starts in front of the end of the text is one of the lines.
-/
theorem lt_lineCount (hlt : doc.lineStart line < doc.size) : line < doc.lineCount := by
  apply Nat.lt_of_not_le
  intro hcount
  rw [hdoc.lineStart_of_lineCount_le hcount] at hlt
  exact absurd hlt (Nat.lt_irrefl _)

/--
Behind a line that a terminator ends, the next one starts.
-/
theorem startsLine_lineStart (hline : line < doc.lineCount) :
    startsLine doc.text (doc.lineStart line) = true ∧ doc.lineOf (doc.lineStart line) = line := by
  rw [lineCount, hdoc.lines] at hline
  obtain ⟨pos, hstart, hbreaks, hpos⟩ := exists_startsLine hline
  rw [hdoc.lineStart_eq, hpos, hdoc.lineOf_eq]
  exact ⟨hstart, hbreaks⟩

theorem startsLine_of_lineStart_lt (hlt : doc.lineStart line < doc.size) : startsLine doc.text (doc.lineStart line) = true :=
  (hdoc.startsLine_lineStart (hdoc.lt_lineCount hlt)).1

theorem lineOf_eq_iff (hi : i < doc.size) : doc.lineOf i = line ↔ doc.lineStart line ≤ i ∧ i < doc.lineStart (line + 1) := by
  rw [hdoc.lineStart_eq, hdoc.lineStart_eq, Document.lineOf, hdoc.lines]
  exact LineIndex.lineOf_eq_iff hi

theorem lineOf_succ (pos : Nat) : doc.lineOf (pos + 1) = doc.lineOf pos + if endsLine doc.text pos then 1 else 0 := by
  rw [hdoc.lineOf_eq, hdoc.lineOf_eq, breaksBefore_succ, startsLine_succ]

/--
Only the last byte of a line ends it.
-/
theorem endsLine_of_succ_lt (hle : doc.lineStart line ≤ i) (hlt : i + 1 < doc.lineStart (line + 1)) :
    endsLine doc.text i = false := by
  have hsize := hdoc.lineStart_le_size (line + 1)
  have hline := (hdoc.lineOf_eq_iff (by omega)).mpr ⟨hle, Nat.lt_of_succ_lt hlt⟩
  have hline' := (hdoc.lineOf_eq_iff (by omega)).mpr ⟨Nat.le_succ_of_le hle, hlt⟩
  rw [hdoc.lineOf_succ, hline] at hline'
  rw [Bool.eq_false_iff]
  intro hends
  rw [if_pos hends] at hline'
  omega

end Lines

section Terminator

variable (hdoc : doc.WellFormed) (hline : line + 1 < doc.lineCount)
include hdoc hline

theorem lineStart_lt_succ : doc.lineStart line < doc.lineStart (line + 1) := by
  rw [hdoc.lineStart_eq, hdoc.lineStart_eq]
  rw [Document.lineCount, hdoc.lines] at hline
  exact lineStart_lt (Nat.lt_succ_self line) hline

theorem lineStart_succ_pos : 0 < doc.lineStart (line + 1) :=
  Nat.lt_of_le_of_lt (Nat.zero_le _) (hdoc.lineStart_lt_succ hline)

theorem endsLine_of_lineStart_succ : endsLine doc.text (doc.lineStart (line + 1) - 1) = true :=
  endsLine_of_startsLine (hdoc.startsLine_lineStart hline).1 (hdoc.lineStart_succ_pos hline)

theorem endsLine_iff (hle : doc.lineStart line ≤ i) (hlt : i < doc.lineStart (line + 1)) :
    endsLine doc.text i = true ↔ i + 1 = doc.lineStart (line + 1) := by
  constructor
  . intro hends
    apply Decidable.byContradiction
    intro hne
    rw [hdoc.endsLine_of_succ_lt hle (Nat.lt_of_le_of_ne hlt hne)] at hends
    cases hends
  . intro heq
    rw [← startsLine_succ, heq]
    exact (hdoc.startsLine_lineStart hline).1

theorem terminated_lineEnd : Terminated doc.text (doc.lineEnd line) (doc.lineStart (line + 1)) := by
  rw [hdoc.lineEnd_eq, hdoc.lineStart_eq]
  rw [Document.lineCount, hdoc.lines] at hline
  exact (LineIndex.terminated_lineEnd hline).2

/--
Between the end of a line and the start of the next one, there is the terminator.
-/
theorem lineEnd_spec : doc.lineStart line ≤ doc.lineEnd line ∧ doc.lineEnd line < doc.lineStart (line + 1)
    ∧ ∀ i, doc.lineEnd line ≤ i → i < doc.lineStart (line + 1) → doc.text[i]? = some 0x0A ∨ doc.text[i]? = some 0x0D := by
  refine ⟨?_, (hdoc.terminated_lineEnd hline).bytes⟩
  rw [hdoc.lineEnd_eq, hdoc.lineStart_eq]
  exact (holds_lineEnd doc.text line).le

end Terminator

/--
A line with a byte is empty if that byte starts its terminator.
-/
theorem lineStart_eq_lineEnd_iff (hdoc : doc.WellFormed) (hlt : doc.lineStart line < doc.size) :
    doc.lineStart line = doc.lineEnd line
      ↔ doc.text[doc.lineStart line]? = some 0x0A ∨ doc.text[doc.lineStart line]? = some 0x0D := by
  constructor
  . intro hempty
    by_cases hline : line + 1 < doc.lineCount
    . obtain ⟨_, hend, hbyte⟩ := hdoc.lineEnd_spec hline
      rw [hempty]
      exact hbyte _ (Nat.le_refl _) hend
    . rw [Document.lineCount, hdoc.lines] at hline
      rw [hempty, hdoc.lineEnd_eq, lineEnd_of_count_le_succ (Nat.le_of_not_lt hline)] at hlt
      exact absurd hlt (Nat.lt_irrefl _)
  . intro hbyte
    have hholds := holds_lineEnd doc.text line
    rw [← hdoc.lineEnd_eq, ← hdoc.lineStart_eq] at hholds
    apply Nat.le_antisymm hholds.le
    apply Nat.le_of_not_lt
    intro hinside
    obtain ⟨hfeed, hreturn⟩ := hholds.byte _ (Nat.le_refl _) hinside
    exact hbyte.elim hfeed hreturn

end WellFormed

/--
The index of a text partitions it, and a document with this text has the ends of its lines.
-/
theorem lines_partition_text (text : Array UInt8) : (LineIndex.ofText text).Partitions text
    ∧ ∀ doc : Document, doc.WellFormed → doc.text = text →
      ∀ line, doc.lineEnd line = (LineIndex.ofText text).lineEnd text line := by
  refine ⟨partitions_ofText text, ?_⟩
  rintro doc hdoc rfl line
  exact hdoc.lineEnd_eq line

theorem lines_partition_text_inserted :
    let doc := (ofText #[0x61, 0x0D, 0x0D, 0x0A, 0x0A, 0x0D]).insert 4 #[0x62, 0x0D]
    let index := LineIndex.ofText doc.text
    doc.text = #[0x61, 0x0D, 0x0D, 0x0A, 0x62, 0x0D, 0x0A, 0x0D] ∧ index.Partitions doc.text
      ∧ (List.range 5).map (index.terminator doc.text) = [[0x0D], [0x0D, 0x0A], [0x0D, 0x0A], [0x0D], []]
      ∧ doc.lineEnd 1 = index.lineEnd doc.text 1 ∧ doc.lineEnd 1 = 2 := by
  intro doc index
  obtain ⟨hpartitions, hends⟩ := lines_partition_text doc.text
  have hdoc : doc.WellFormed := wellFormed_insert (wellFormed_ofText _) _ _
  exact ⟨by decide +kernel, hpartitions, by decide +kernel, hends doc hdoc rfl 1, by decide +kernel⟩

end Document

end Highlight
