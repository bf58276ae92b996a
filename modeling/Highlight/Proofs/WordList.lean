import Mathlib.Data.List.Sort
import Highlight.Proofs.Text.Words
import Highlight.WordList

/-!
A keyword list holds the words of the text that was set last, and both of its lookups find them: the one by bisection, and
the one for short forms, which goes through the words that start like the one in question.
-/

namespace Highlight.WordList

variable {list : WordList} {text word entry : String} {marker first : Char}

section Words

theorem mem_ofList {words : List String} : word ∈ (ofList words).words ↔ word ∈ words := by
  suffices hfold : ∀ list : WordList, word ∈ (words.foldl insert list).words ↔ word ∈ list.words ∨ word ∈ words by
    exact (hfold empty).trans (or_iff_right List.not_mem_nil)
  induction words with
  | nil => exact fun _ => (or_iff_left List.not_mem_nil).symm
  | cons first words ih =>
    intro list
    have hinsert : word ∈ (list.insert first).words ↔ word = first ∨ word ∈ list.words := mem_insert_go
    rw [List.foldl_cons, ih, hinsert, List.mem_cons, or_comm (a := word = first), or_assoc]

theorem mem_ofText : word ∈ (ofText text).words ↔ word ∈ Blank.words text :=
  mem_ofList

/--
The order leaves only one list for a set of words.
-/
theorem ext_of_mem_iff {other : WordList} (h : ∀ word, word ∈ list.words ↔ word ∈ other.words) : list = other := by
  obtain ⟨words, hwords⟩ := list
  obtain ⟨words', hwords'⟩ := other
  have : Std.Irrefl (α := String) (· < ·) := ⟨String.lt_irrefl⟩
  have : Std.Antisymm (α := String) (· < ·) := ⟨fun _ _ hlt hgt => absurd hgt (String.lt_asymm hlt)⟩
  obtain rfl : words = words' := hwords.eq_of_mem_iff hwords' h
  rfl

end Words

/--
What passes a test stands in front of what does not.
-/
def IsInitial {α : Type} (p : α → Bool) (l : List α) : Prop :=
  l.Pairwise fun a b => p b = true → p a = true

section Bisection

variable {before : String → Bool} {words : List String}

/--
What is left of a bisection: the words in front of `start` are `before` the place, and those from `stop` on are not.
-/
structure Narrowed (before : String → Bool) (words : List String) (start stop : Nat) : Prop where
  inFront : ∀ i word, words[i]? = some word → i < start → before word = true
  behind : ∀ i word, words[i]? = some word → stop ≤ i → before word = false

theorem before_of_lt (h : IsInitial before words) {i j : Nat} {a b : String}
    (ha : words[i]? = some a) (hb : words[j]? = some b) (hij : i < j) : before b = true → before a = true := by
  obtain ⟨hi, rfl⟩ := List.getElem?_eq_some_iff.mp ha
  obtain ⟨hj, rfl⟩ := List.getElem?_eq_some_iff.mp hb
  exact List.pairwise_iff_getElem.mp h i j hi hj hij

theorem narrowed_go (h : IsInitial before words) (start size : Nat)
    (hleft : Narrowed before words start (start + size)) :
    Narrowed before words (countBefore.go before words start size) (countBefore.go before words start size) := by
  induction start, size using countBefore.go.induct before words with
  | case1 start =>
    rw [countBefore.go]
    exact hleft
  | case2 start size half hany ih =>
    rw [countBefore.go, if_pos hany]
    obtain ⟨middle, hmiddle, hbefore⟩ := (Option.any_eq_true _ _).mp hany
    refine ih ⟨fun i word hword hi => ?_, fun i word hword hi => ?_⟩
    . rcases Nat.lt_or_eq_of_le (Nat.le_of_lt_succ hi) with hlt | rfl
      . exact before_of_lt h hword hmiddle hlt hbefore
      . rw [hmiddle] at hword
        exact Option.some.inj hword ▸ hbefore
    . exact hleft.behind i word hword (by omega)
  | case3 start size half hany ih =>
    rw [countBefore.go, if_neg hany]
    refine ih ⟨hleft.inFront, fun i word hword hi => Bool.eq_false_iff.mpr fun hbefore => hany ?_⟩
    -- A word that is `before` behind the middle makes the middle one `before` as well.
    rcases Nat.lt_or_eq_of_le hi with hlt | heq
    . have hmiddle := List.getElem?_eq_getElem (Nat.lt_trans hlt (List.getElem?_eq_some_iff.mp hword).1)
      rw [hmiddle, Option.any_some]
      exact before_of_lt h hmiddle hword hlt hbefore
    . rw [heq, hword, Option.any_some]
      exact hbefore

/--
The bisection counts the words that are `before` the place, if they stand in front.
-/
theorem before_iff_lt_countBefore (h : IsInitial before list.words) {i : Nat}
    (hword : list.words[i]? = some word) : before word = true ↔ i < list.countBefore before := by
  have hdone : Narrowed before list.words (list.countBefore before) (list.countBefore before) := by
    apply narrowed_go h
    refine ⟨fun _ _ _ hi => absurd hi (Nat.not_lt_zero _), fun i word hword hi => ?_⟩
    obtain ⟨hlt, _⟩ := List.getElem?_eq_some_iff.mp hword
    rw [size] at hi
    omega
  constructor
  . intro hbefore
    by_contra hlt
    rw [hdone.behind i word hword (Nat.not_lt.mp hlt)] at hbefore
    cases hbefore
  . exact hdone.inFront i word hword

/--
The words behind those that are counted.
-/
theorem mem_drop_countBefore (h : IsInitial before list.words) :
    word ∈ list.words.drop (list.countBefore before) ↔ word ∈ list.words ∧ before word = false := by
  constructor
  . intro hmem
    obtain ⟨i, hi⟩ := List.mem_iff_getElem?.mp hmem
    rw [List.getElem?_drop] at hi
    refine ⟨List.mem_of_getElem? hi, Bool.eq_false_iff.mpr fun hbefore => ?_⟩
    have hlt := (before_iff_lt_countBefore h hi).mp hbefore
    omega
  . rintro ⟨hmem, hbefore⟩
    obtain ⟨i, hi⟩ := List.mem_iff_getElem?.mp hmem
    have hle : list.countBefore before ≤ i := by
      by_contra hlt
      have := (before_iff_lt_countBefore h hi).mpr (by omega)
      exact absurd (hbefore.symm.trans this) Bool.false_ne_true
    apply List.mem_of_getElem? (i := i - list.countBefore before)
    rw [List.getElem?_drop, Nat.add_sub_cancel' hle]
    exact hi

end Bisection

section Lookup

theorem contains_iff : list.contains word = true ↔ word ∈ list.words := by
  have hmono : IsInitial (· < word) list.words := by
    refine list.ascending.imp fun hab hb => decide_eq_true ?_
    exact String.lt_trans hab (of_decide_eq_true hb)
  unfold contains
  rw [beq_iff_eq]
  constructor
  . exact List.mem_of_getElem?
  . intro hmem
    obtain ⟨i, hi⟩ := List.mem_iff_getElem?.mp hmem
    have hbehind : ¬ i < list.countBefore (· < word) := by
      rw [← before_iff_lt_countBefore hmono hi, decide_eq_true_iff]
      exact String.lt_irrefl word
    rcases Nat.lt_or_eq_of_le (Nat.not_lt.mp hbehind) with hlt | heq
    . -- The word at the count is in front of `word`, so that it would be one of those that are counted.
      obtain ⟨hlength, rfl⟩ := List.getElem?_eq_some_iff.mp hi
      have hother := List.getElem?_eq_getElem (Nat.lt_trans hlt hlength)
      have hless := List.pairwise_iff_getElem.mp list.ascending _ _ (Nat.lt_trans hlt hlength) hlength hlt
      exact absurd ((before_iff_lt_countBefore hmono hother).mp (decide_eq_true hless)) (Nat.lt_irrefl _)
    . rw [heq]
      exact hi

theorem takeWhile_eq_filter {α : Type} {p : α → Bool} {l : List α} (h : IsInitial p l) : l.takeWhile p = l.filter p := by
  induction l with
  | nil => rfl
  | cons a l ih =>
    obtain ⟨ha, hl⟩ := List.pairwise_cons.mp h
    by_cases hp : p a = true
    . rw [List.takeWhile_cons_of_pos hp, List.filter_cons_of_pos hp, ih hl]
    . rw [List.takeWhile_cons_of_neg hp, List.filter_cons_of_neg hp, List.filter_eq_nil_iff.mpr fun b hb hb' => hp (ha b hb hb')]

/--
Words in order have their first characters in order.
-/
theorem head_le_of_lt {a b : String} {c d : Char} (h : a < b) (ha : a.toList.head? = some c) (hb : b.toList.head? = some d) :
    c ≤ d := by
  obtain ⟨as, has⟩ := List.head?_eq_some_iff.mp ha
  obtain ⟨bs, hbs⟩ := List.head?_eq_some_iff.mp hb
  rw [String.lt_iff, has, hbs, List.cons_lt_cons_iff] at h
  rcases h with hlt | ⟨rfl, _⟩
  . exact Std.le_of_lt hlt
  . exact Char.le_refl c

theorem exists_head?_of_mem (hempty : "" ∉ list.words) (h : word ∈ list.words) : ∃ c, word.toList.head? = some c := by
  rcases hhead : word.toList.head? with _ | c
  . rw [List.head?_eq_none_iff, String.toList_eq_nil_iff] at hhead
    exact absurd (hhead ▸ h) hempty
  . exact ⟨c, rfl⟩

/--
The words with one first character stand in a row, and the bisection finds where it starts.
-/
theorem mem_startingWith (hempty : "" ∉ list.words) :
    entry ∈ list.startingWith first ↔ entry ∈ list.words ∧ entry.toList.head? = some first := by
  have hmono : IsInitial (fun word : String => word.toList.head?.any (· < first)) list.words := by
    refine list.ascending.imp_of_mem fun {a b} ha _ hab hb => ?_
    obtain ⟨c, hc⟩ := exists_head?_of_mem hempty ha
    obtain ⟨d, hd, hless⟩ := (Option.any_eq_true _ _).mp hb
    dsimp only
    rw [hc]
    exact decide_eq_true (Std.lt_of_le_of_lt (head_le_of_lt hab hc hd) (of_decide_eq_true hless))
  have hrow : IsInitial (fun word : String => word.toList.head? == some first)
      (list.words.drop (list.countBefore fun word => word.toList.head?.any (· < first))) := by
    refine (list.ascending.sublist (List.drop_sublist _ _)).imp_of_mem fun {a b} ha _ hab hb => ?_
    obtain ⟨hmem, hnot⟩ := (mem_drop_countBefore hmono).mp ha
    obtain ⟨c, hc⟩ := exists_head?_of_mem hempty hmem
    have hle := head_le_of_lt hab hc (beq_iff_eq.mp hb)
    dsimp only
    rw [hc] at hnot ⊢
    rw [Std.le_antisymm hle (Std.not_lt.mp (of_decide_eq_false hnot))]
    exact beq_self_eq_true _
  unfold startingWith
  rw [takeWhile_eq_filter hrow, List.mem_filter, mem_drop_countBefore hmono, beq_iff_eq]
  constructor
  . rintro ⟨⟨hmem, _⟩, hhead⟩
    exact ⟨hmem, hhead⟩
  . rintro ⟨hmem, hhead⟩
    refine ⟨⟨hmem, ?_⟩, hhead⟩
    rw [hhead]
    exact decide_eq_false (Std.lt_irrefl)

end Lookup

section ShortForms

/--
`word` is a short form of `entry`: it goes on as the entry does without its marker, at least up to where the marker stands.
Without a marker in it, only the entry itself is.
-/
def IsShortForm {α : Type} [DecidableEq α] (marker : α) (entry word : List α) : Prop :=
  word <+: entry.erase marker ∧ if marker ∈ entry then entry.idxOf marker ≤ word.length else word = entry

instance {α : Type} [DecidableEq α] (marker : α) (entry word : List α) : Decidable (IsShortForm marker entry word) :=
  inferInstanceAs (Decidable (word <+: entry.erase marker
    ∧ if marker ∈ entry then entry.idxOf marker ≤ word.length else word = entry))

theorem isShortForm_map {α β : Type} [DecidableEq α] [DecidableEq β] {f : α → β} (hf : Function.Injective f) {marker : α}
    {entry word : List α} : IsShortForm (f marker) (entry.map f) (word.map f) ↔ IsShortForm marker entry word := by
  have hmap : Function.Injective (List.map f) := List.map_injective_iff.mpr hf
  have hprefix : word.map f <+: (entry.erase marker).map f ↔ word <+: entry.erase marker := by
    rw [List.prefix_map_iff]
    constructor
    . rintro ⟨part, hpart, heq⟩
      rwa [hmap heq]
    . exact fun h => ⟨word, h, rfl⟩
  have hidx : (entry.map f).idxOf (f marker) = entry.idxOf marker := by
    unfold List.idxOf
    rw [List.findIdx_map]
    congr 1
    funext x
    exact Bool.eq_iff_iff.mpr (by simp [hf.eq_iff])
  unfold IsShortForm
  rw [← List.map_erase hf, hprefix, hidx, List.length_map, hmap.eq_iff]
  simp only [List.mem_map_of_injective hf]

/--
Behind a marker that was passed, any part of the rest will do.
-/
theorem abbreviates_go_iff {entry word : List Char} {reached : Bool} (hfirst : entry.head? ≠ some marker) (hcount : entry.count marker ≤ 1) :
    abbreviates.go marker entry word reached = true
      ↔ word <+: entry.erase marker
        ∧ (reached = true ∨ if marker ∈ entry then entry.idxOf marker ≤ word.length else word = entry) := by
  induction word generalizing entry reached with
  | nil =>
    cases entry with
    | nil => simp [abbreviates.go]
    | cons e entry =>
      have hne : e ≠ marker := fun heq => hfirst (congrArg some heq)
      simp [abbreviates.go, List.idxOf_cons_ne, hne]
  | cons c word ih =>
    cases entry with
    | nil => simp [abbreviates.go]
    | cons e entry =>
      have hne : e ≠ marker := fun heq => hfirst (congrArg some heq)
      have herase : (e :: entry).erase marker = e :: entry.erase marker :=
        List.erase_cons_tail (by simp [hne])
      have hmem : marker ∈ e :: entry ↔ marker ∈ entry := by
        simp [Ne.symm hne]
      rw [List.count_cons_of_ne hne] at hcount
      rw [abbreviates.go, herase, List.cons_prefix_cons, List.idxOf_cons_ne _ hne]
      by_cases hc : c = e
      . subst hc
        rw [if_pos (beq_self_eq_true c)]
        split
        . next hmarker =>
          obtain ⟨rest, rfl⟩ := List.head?_eq_some_iff.mp (beq_iff_eq.mp hmarker)
          have hrest : marker ∉ rest := by
            rw [List.count_cons_self] at hcount
            exact List.count_eq_zero.mp (by omega)
          have hrestFirst : rest.head? ≠ some marker := fun h => hrest (List.mem_of_head? h)
          rw [List.tail_cons, ih hrestFirst (by rw [List.count_eq_zero.mpr hrest]; exact Nat.zero_le 1)]
          simp [List.erase_of_not_mem hrest]
        . next hmarker =>
          rw [ih (fun h => hmarker (beq_iff_eq.mpr h)) hcount]
          simp [Ne.symm hne]
      . simp [hc]

/--
The walk along an entry and a word accepts the short forms of the entry.
-/
theorem abbreviates_iff (hfirst : entry.toList.head? ≠ some marker) (hcount : entry.toList.count marker ≤ 1) :
    abbreviates marker entry word = true ↔ IsShortForm marker entry.toList word.toList := by
  unfold abbreviates IsShortForm
  rw [abbreviates_go_iff hfirst hcount]
  simp only [Bool.false_eq_true, false_or]

/--
A word that is not empty starts like what it is a short form of.
-/
theorem head?_of_abbreviates {rest : List Char} (hword : word.toList = first :: rest) (h : abbreviates marker entry word = true) :
    entry.toList.head? = some first := by
  unfold abbreviates at h
  rw [hword] at h
  cases hentry : entry.toList with
  | nil =>
    rw [hentry] at h
    cases h
  | cons e tail =>
    rw [hentry, abbreviates.go] at h
    split at h
    . next heq => rw [beq_iff_eq.mp heq, List.head?_cons]
    . cases h

theorem containsAbbreviated_iff (hempty : "" ∉ list.words) :
    list.containsAbbreviated word marker = true ↔ word ≠ "" ∧ ∃ entry ∈ list.words, abbreviates marker entry word = true := by
  unfold containsAbbreviated
  split
  . next hword =>
    rw [String.toList_eq_nil_iff.mp hword]
    exact iff_of_false Bool.false_ne_true fun h => h.1 rfl
  . next first rest hword =>
    have hne : word ≠ "" := by
      rintro rfl
      cases hword
    rw [List.any_eq_true]
    constructor
    . rintro ⟨entry, hentry, habbreviates⟩
      exact ⟨hne, entry, ((mem_startingWith hempty).mp hentry).1, habbreviates⟩
    . rintro ⟨_, entry, hentry, habbreviates⟩
      exact ⟨entry, (mem_startingWith hempty).mpr ⟨hentry, head?_of_abbreviates hword habbreviates⟩, habbreviates⟩

end ShortForms

section Changes

/--
What is done to a list.
-/
inductive Change where
  | set (text : String)
  | clear

def Change.apply (list : WordList) (change : Change) : WordList :=
  match change with
  | .set text => (list.set text).1
  | .clear => .empty

/--
The words of the text that was set last; none, if the list was cleared since.
-/
def lastWords (changes : List Change) : List String :=
  match changes.getLast? with
  | some (.set text) => Blank.words text
  | _ => []

theorem mem_foldl_apply (changes : List Change) :
    word ∈ (changes.foldl Change.apply empty).words ↔ word ∈ lastWords changes := by
  rcases List.eq_nil_or_concat changes with rfl | ⟨changes, change, rfl⟩
  . rfl
  . rw [List.concat_eq_append, List.foldl_append, lastWords, List.getLast?_concat]
    cases change with
    | set text => exact mem_ofText
    | clear => rfl

theorem ne_empty_of_mem_lastWords {changes : List Change} (h : word ∈ lastWords changes) : word ≠ "" := by
  unfold lastWords at h
  split at h
  . rintro rfl
    exact (Blank.mem_words_iff.mp h).ne_nil rfl
  . cases h

theorem changed_eq_false_iff : (list.set text).2 = false ↔ ∀ word, word ∈ Blank.words text ↔ word ∈ list.words := by
  show (ofText text != list) = false ↔ _
  rw [bne_eq_false_iff_eq]
  constructor
  . rintro rfl word
    exact mem_ofText.symm
  . intro h
    exact ext_of_mem_iff fun word => mem_ofText.trans (h word)

/--
Whatever has been done to a list that was empty first: the words found in it are those of the text that was set last, none if
it was cleared since. Another text changes it unless it has the same words. A short form is found if it is one of an entry,
where no entry starts with the marker or has it twice.
-/
theorem lookup_iff_of_changes (changes : List Change) :
    let list := changes.foldl Change.apply empty
    (∀ word, list.contains word = true ↔ word ∈ lastWords changes)
      ∧ (∀ text, (list.set text).2 = false ↔ ∀ word, word ∈ Blank.words text ↔ list.contains word = true)
      ∧ ∀ marker, (∀ entry ∈ lastWords changes, entry.toList.head? ≠ some marker ∧ entry.toList.count marker ≤ 1) →
        ∀ word, list.containsAbbreviated word marker = true
          ↔ word ≠ "" ∧ ∃ entry ∈ lastWords changes, IsShortForm marker entry.toList word.toList := by
  intro list
  have hwords : ∀ word, word ∈ list.words ↔ word ∈ lastWords changes := fun _ => mem_foldl_apply changes
  have hempty : "" ∉ list.words := fun h => ne_empty_of_mem_lastWords ((hwords "").mp h) rfl
  refine ⟨fun word => contains_iff.trans (hwords word), fun text => ?_, fun marker hentries word => ?_⟩
  . simp only [contains_iff]
    exact changed_eq_false_iff
  . rw [containsAbbreviated_iff hempty]
    refine and_congr_right fun _ => exists_congr fun entry => ?_
    rw [hwords]
    exact and_congr_right fun hentry => abbreviates_iff (hentries entry hentry).1 (hentries entry hentry).2

/--
A list that is cleared and filled again, in which `rem` stands for `remark`.
-/
theorem lookup_iff_of_cleared :
    let changes := [Change.set "let", .clear, .set "rem~ark pro~mpt\tselect rem~ark"]
    let list := changes.foldl Change.apply empty
    (∀ entry ∈ lastWords changes, entry.toList.head? ≠ some '~' ∧ entry.toList.count '~' ≤ 1)
      ∧ list.contains "select" = true ∧ list.contains "let" = false ∧ (list.set "select pro~mpt rem~ark").2 = false
      ∧ list.containsAbbreviated "rem" '~' = true ∧ list.containsAbbreviated "sel" '~' = false := by
  intro changes list
  have hentries : ∀ entry ∈ lastWords changes, entry.toList.head? ≠ some '~' ∧ entry.toList.count '~' ≤ 1 := by
    decide +kernel
  obtain ⟨hcontains, hset, habbreviated⟩ := lookup_iff_of_changes changes
  refine ⟨hentries, ?_, ?_, ?_, ?_, ?_⟩
  . exact (hcontains "select").mpr (by decide +kernel)
  . exact Bool.eq_false_iff.mpr fun h => absurd ((hcontains "let").mp h) (by decide +kernel)
  . refine (hset _).mpr fun word => ?_
    rw [hcontains]
    have hsubset : ∀ word ∈ Blank.words "select pro~mpt rem~ark", word ∈ lastWords changes := by decide +kernel
    have hsubset' : ∀ word ∈ lastWords changes, word ∈ Blank.words "select pro~mpt rem~ark" := by decide +kernel
    exact ⟨hsubset word, hsubset' word⟩
  . exact (habbreviated '~' hentries "rem").mpr (by decide +kernel)
  . exact Bool.eq_false_iff.mpr fun h => absurd ((habbreviated '~' hentries "sel").mp h) (by decide +kernel)

end Changes

end Highlight.WordList
