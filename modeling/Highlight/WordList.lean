import Highlight.Text.Blank

/-!
Keyword lists. The words of a list are kept in order, so that they can be looked up by bisection.
-/

namespace Highlight

/--
A set of words, kept as the ascending list of its members.
-/
structure WordList where
  words : List String
  ascending : words.Pairwise (· < ·)
  deriving DecidableEq, Repr

namespace WordList

def empty : WordList :=
  ⟨[], .nil⟩

def size (list : WordList) : Nat :=
  list.words.length

def isEmpty (list : WordList) : Bool :=
  list.words.isEmpty

def insert.go (word : String) (words : List String) : List String :=
  match words with
  | [] => [word]
  | other :: rest =>
    if word < other then
      word :: other :: rest
    else if word == other then
      other :: rest
    else
      other :: go word rest

theorem mem_insert_go {word other : String} {words : List String} :
    other ∈ insert.go word words ↔ other = word ∨ other ∈ words := by
  induction words with
  | nil => simp only [insert.go, List.mem_cons]
  | cons first words ih =>
    rw [insert.go]
    split
    . exact List.mem_cons
    . split
      . next hfirst =>
        obtain rfl := beq_iff_eq.mp hfirst
        exact ⟨.inr, fun h => h.elim (fun h => h ▸ List.mem_cons_self) id⟩
      . rw [List.mem_cons, ih, List.mem_cons]
        exact or_left_comm

theorem ascending_insert_go (word : String) {words : List String} (h : words.Pairwise (· < ·)) :
    (insert.go word words).Pairwise (· < ·) := by
  induction words with
  | nil => exact List.pairwise_singleton _ _
  | cons first words ih =>
    obtain ⟨hfirst, hrest⟩ := List.pairwise_cons.mp h
    rw [insert.go]
    split
    . next hlt =>
      refine List.pairwise_cons.mpr ⟨fun other hother => ?_, h⟩
      rcases List.mem_cons.mp hother with rfl | hother
      . exact hlt
      . exact String.lt_trans hlt (hfirst other hother)
    . next hnot =>
      split
      . exact h
      . next hne =>
        refine List.pairwise_cons.mpr ⟨fun other hother => ?_, ih hrest⟩
        rcases mem_insert_go.mp hother with rfl | hother
        . exact Std.lt_of_le_of_ne (String.not_lt.mp hnot) fun heq => hne (beq_iff_eq.mpr heq.symm)
        . exact hfirst other hother

def insert (list : WordList) (word : String) : WordList :=
  ⟨insert.go word list.words, ascending_insert_go word list.ascending⟩

def ofList (words : List String) : WordList :=
  words.foldl insert empty

/--
The words of a text, which stand between blanks.
-/
def ofText (text : String) : WordList :=
  ofList (Blank.words text)

/--
The list with the words of a text in place of its own. The second part says whether that changes it.
-/
def set (list : WordList) (text : String) : WordList × Bool :=
  let filled := ofText text
  (filled, filled != list)

def countBefore.go (before : String → Bool) (words : List String) (start size : Nat) : Nat :=
  match size with
  | 0 => start
  | size + 1 =>
    let half := (size + 1) / 2
    if words[start + half]?.any before then
      go before words (start + half + 1) (size - half)
    else
      go before words start half
termination_by size

/--
The number of words that are `before` some place, by bisection, if no word behind the place is `before` it.
-/
def countBefore (list : WordList) (before : String → Bool) : Nat :=
  countBefore.go before list.words 0 list.size

def contains (list : WordList) (word : String) : Bool :=
  list.words[list.countBefore (· < word)]? == some word

/--
Whether `word` is a short form of `entry`. In an entry, `marker` stands behind the shortest form that
is accepted; an entry without it has no short form. `reached` says whether the marker was passed.
-/
def abbreviates.go (marker : Char) (entry word : List Char) (reached : Bool) : Bool :=
  match word, entry with
  | [], [] => true
  | [], _ :: _ => reached
  | _ :: _, [] => false
  | c :: word, e :: entry =>
    if c == e then
      if entry.head? == some marker then
        go marker entry.tail word true
      else
        go marker entry word reached
    else
      false

def abbreviates (marker : Char) (entry word : String) : Bool :=
  abbreviates.go marker entry.toList word.toList false

/--
The words that start with the character `first`, which stand in a row.
-/
def startingWith (list : WordList) (first : Char) : List String :=
  (list.words.drop (list.countBefore fun word => word.toList.head?.any (· < first))).takeWhile
    fun word => word.toList.head? == some first

/--
Whether `word` is a member or a short form of a member, where `marker` ends the shortest form. The
empty word never is.
-/
def containsAbbreviated (list : WordList) (word : String) (marker : Char) : Bool :=
  match word.toList with
  | [] => false
  | first :: _ => (list.startingWith first).any fun entry => abbreviates marker entry word

end WordList

/--
The keyword lists of a language, in the order the language declares them.
-/
abbrev Keywords := Array WordList

/--
The list at `index`, which is empty where none is given.
-/
def Keywords.list (keywords : Keywords) (index : Nat) : WordList :=
  keywords[index]?.getD .empty

end Highlight
