import Mathlib.Data.List.TakeWhile
import Highlight.Text.Blank

/-!
The words of a text are its parts between blanks, or between a blank and an end of the text, that have no blank themselves.
-/

namespace Highlight.Blank

theorem splitWords_of_blanks {text : List Char} (h : text.dropWhile isBlank = []) : splitWords text = [] := by
  rw [splitWords]
  split
  . rfl
  . next heq => cases h.symm.trans heq

theorem splitWords_of_dropWhile {text rest : List Char} {c : Char} (h : text.dropWhile isBlank = c :: rest) :
    splitWords text = (c :: rest.takeWhile (!isBlank ·)) :: splitWords (rest.dropWhile (!isBlank ·)) := by
  rw [splitWords]
  split
  . next heq => cases h.symm.trans heq
  . next heq =>
    obtain ⟨rfl, rfl⟩ := List.cons_eq_cons.mp (heq.symm.trans h)
    rfl

/--
The blanks a text starts with do not count.
-/
theorem splitWords_congr {text other : List Char} (h : text.dropWhile isBlank = other.dropWhile isBlank) :
    splitWords text = splitWords other := by
  cases hother : other.dropWhile isBlank with
  | nil => rw [splitWords_of_blanks hother, splitWords_of_blanks (h.trans hother)]
  | cons c rest => rw [splitWords_of_dropWhile hother, splitWords_of_dropWhile (h.trans hother)]

/--
A text can be split at one of its blanks.
-/
theorem splitWords_append_cons {b : Char} (hb : isBlank b = true) (front text : List Char) :
    splitWords (front ++ b :: text) = splitWords front ++ splitWords text := by
  induction front using splitWords.induct with
  | case1 front hdrop =>
    rw [splitWords_of_blanks hdrop, List.nil_append]
    apply splitWords_congr
    rw [List.dropWhile_append, hdrop, List.isEmpty_nil, if_pos rfl, List.dropWhile_cons_of_pos hb]
  | case2 front c rest hdrop ih =>
    have hdrop' : (front ++ b :: text).dropWhile isBlank = c :: (rest ++ b :: text) := by
      rw [List.dropWhile_append, hdrop, List.isEmpty_cons, if_neg Bool.false_ne_true, List.cons_append]
    have htake : (rest ++ b :: text).takeWhile (!isBlank ·) = rest.takeWhile (!isBlank ·) := by
      rw [List.takeWhile_append]
      split
      . next hall =>
        rw [List.takeWhile_cons_of_neg (by simp [hb]), List.append_nil]
        exact ((List.takeWhile_prefix _).eq_of_length hall).symm
      . rfl
    have hrest : splitWords ((rest ++ b :: text).dropWhile (!isBlank ·))
        = splitWords (rest.dropWhile (!isBlank ·)) ++ splitWords text := by
      rw [← ih, List.dropWhile_append]
      split
      . next hnone =>
        rw [List.isEmpty_iff.mp hnone]
        simp [hb]
      . rfl
    rw [splitWords_of_dropWhile hdrop', splitWords_of_dropWhile hdrop, htake, hrest, List.cons_append]

/--
Texts with a blank between them have the words of each.
-/
theorem splitWords_intercalate {b : Char} (hb : isBlank b = true) (texts : List (List Char)) :
    splitWords ([b].intercalate texts) = texts.flatMap splitWords := by
  induction texts with
  | nil =>
    apply splitWords_of_blanks
    simp
  | cons text texts ih =>
    cases texts with
    | nil => simp
    | cons other texts =>
      rw [List.intercalate_cons_cons, List.append_assoc, List.singleton_append, splitWords_append_cons hb, ih]
      simp

theorem splitWords_of_word {word : List Char} (hne : word ≠ []) (hword : ∀ c ∈ word, isBlank c = false) :
    splitWords word = [word] := by
  cases word with
  | nil => exact absurd rfl hne
  | cons c rest =>
    have hdrop : (c :: rest).dropWhile isBlank = c :: rest := by
      rw [List.dropWhile_cons_of_neg]
      simp [hword c List.mem_cons_self]
    have hrest : ∀ x ∈ rest, (!isBlank x) = true := by
      intro x hx
      rw [hword x (List.mem_cons_of_mem c hx)]
      rfl
    rw [splitWords_of_dropWhile hdrop, List.takeWhile_eq_self_iff.mpr hrest, List.dropWhile_eq_nil_iff.mpr hrest,
      splitWords_of_blanks rfl]

/--
A part of a text that blanks, or the ends of the text, stand around, and that has none.
-/
structure IsWordOf (word text : List Char) : Prop where
  ne_nil : word ≠ []
  noBlank : ∀ c ∈ word, isBlank c = false
  stands : ∃ front back, text = front ++ word ++ back
    ∧ (∀ b ∈ front.getLast?, isBlank b = true) ∧ ∀ b ∈ back.head?, isBlank b = true

theorem isWordOf_of_mem_splitWords {text word : List Char} (h : word ∈ splitWords text) : IsWordOf word text := by
  induction text using splitWords.induct with
  | case1 text hdrop =>
    rw [splitWords_of_blanks hdrop] at h
    cases h
  | case2 text c rest hdrop ih =>
    have htext : text = text.takeWhile isBlank ++ (c :: rest.takeWhile (!isBlank ·)) ++ rest.dropWhile (!isBlank ·) := by
      rw [List.append_assoc, List.cons_append, List.takeWhile_append_dropWhile, ← hdrop, List.takeWhile_append_dropWhile]
    have hback : ∀ b ∈ (rest.dropWhile (!isBlank ·)).head?, isBlank b = true := by
      intro b hb
      have hhead := List.head?_dropWhile_not (!isBlank ·) rest
      rw [Option.mem_def.mp hb] at hhead
      simpa using hhead
    rw [splitWords_of_dropWhile hdrop] at h
    rcases List.mem_cons.mp h with rfl | hmem
    . refine ⟨List.cons_ne_nil _ _, fun x hx => ?_, _, _, htext, fun b hb => ?_, hback⟩
      . rcases List.mem_cons.mp hx with rfl | hx
        . have hfirst := List.head?_dropWhile_not isBlank text
          rw [hdrop] at hfirst
          simpa using hfirst
        . simpa using List.mem_takeWhile_imp hx
      . exact List.mem_takeWhile_imp (List.mem_of_getLast? (Option.mem_def.mp hb))
    . obtain ⟨hne, hword, front, back, hrest, hfront, hback'⟩ := ih hmem
      refine ⟨hne, hword, text.takeWhile isBlank ++ (c :: rest.takeWhile (!isBlank ·)) ++ front, back, ?_, ?_, hback'⟩
      . rw [List.append_assoc, List.append_assoc _ front, ← List.append_assoc front, ← hrest]
        exact htext
      . cases front with
        | nil =>
          -- What is left starts with a blank, and the word does not.
          obtain ⟨x, tail, rfl⟩ := List.exists_cons_of_ne_nil hne
          have hx := hback x (by rw [hrest]; rfl)
          rw [hword x List.mem_cons_self] at hx
          cases hx
        | cons b front =>
          rw [List.getLast?_append, List.getLast?_cons, Option.some_or, ← List.getLast?_cons]
          exact hfront

theorem mem_splitWords_of_isWordOf {text word : List Char} (h : IsWordOf word text) : word ∈ splitWords text := by
  obtain ⟨hne, hword, front, back, rfl, hfront, hback⟩ := h
  have hbehind : word ∈ splitWords (word ++ back) := by
    cases back with
    | nil =>
      rw [List.append_nil, splitWords_of_word hne hword]
      exact List.mem_cons_self
    | cons b back =>
      rw [splitWords_append_cons (hback b rfl), splitWords_of_word hne hword]
      exact List.mem_cons_self
  rw [List.append_assoc]
  rcases List.eq_nil_or_concat front with rfl | ⟨front, b, rfl⟩
  . exact hbehind
  . have hb : isBlank b = true := hfront b (by simp)
    rw [List.concat_eq_append, List.append_assoc, List.singleton_append, splitWords_append_cons hb]
    exact List.mem_append_right _ hbehind

theorem mem_splitWords_iff {text word : List Char} : word ∈ splitWords text ↔ IsWordOf word text :=
  ⟨isWordOf_of_mem_splitWords, mem_splitWords_of_isWordOf⟩

theorem mem_words_iff {text word : String} : word ∈ words text ↔ IsWordOf word.toList text.toList := by
  rw [← mem_splitWords_iff, words, List.mem_map]
  constructor
  . rintro ⟨part, hpart, rfl⟩
    rw [String.toList_ofList]
    exact hpart
  . intro h
    exact ⟨word.toList, h, String.ofList_toList⟩

theorem words_intercalate (texts : List String) : words (" ".intercalate texts) = texts.flatMap words := by
  have hsplit := splitWords_intercalate (b := ' ') (by decide) (texts.map String.toList)
  have hblank : " ".toList = [' '] := by decide
  unfold words
  rw [String.toList_intercalate, hblank, hsplit]
  simp [List.map_flatMap, List.flatMap_map]

/--
Nothing is left of a text without its blanks at both ends if it has nothing else.
-/
theorem trim_eq_nil_iff {text : List Char} : trim text = [] ↔ ∀ c ∈ text, isBlank c = true := by
  unfold trim trimLeft
  rw [List.reverse_eq_nil_iff, List.dropWhile_eq_nil_iff]
  constructor
  . intro h
    rw [← List.dropWhile_eq_nil_iff]
    cases hdrop : text.dropWhile isBlank with
    | nil => rfl
    | cons c rest =>
      have hfirst := List.head?_dropWhile_not isBlank text
      rw [hdrop] at hfirst h
      have hblank := h c (by simp)
      simp [hblank] at hfirst
  . intro h c hc
    rw [List.mem_reverse] at hc
    apply h
    exact (List.dropWhile_suffix _).subset hc

end Highlight.Blank
