/-!
Dictionaries: values under texts, in the order of their keys.
-/

namespace Highlight

/--
Entries in ascending order of their keys, each key once.
-/
structure Dict (α : Type) where
  entries : List (String × α)
  ascending : entries.Pairwise fun entry other => entry.1 < other.1
  deriving DecidableEq, Repr

namespace Dict

variable {α β : Type}

def empty : Dict α :=
  ⟨[], .nil⟩

def size (dict : Dict α) : Nat :=
  dict.entries.length

def isEmpty (dict : Dict α) : Bool :=
  dict.entries.isEmpty

def get? (dict : Dict α) (key : String) : Option α :=
  dict.entries.lookup key

def set.go (key : String) (value : α) (entries : List (String × α)) : List (String × α) :=
  match entries with
  | [] => [(key, value)]
  | entry :: rest =>
    if key < entry.1 then
      (key, value) :: entry :: rest
    else if key == entry.1 then
      (key, value) :: rest
    else
      entry :: go key value rest

theorem mem_set_go {key : String} {value : α} {entry : String × α} {entries : List (String × α)}
    (h : entry ∈ set.go key value entries) : entry = (key, value) ∨ entry ∈ entries := by
  induction entries with
  | nil => exact .inl (List.mem_singleton.mp h)
  | cons first rest ih =>
    rw [set.go] at h
    split at h
    . exact List.mem_cons.mp h
    . split at h
      . rcases List.mem_cons.mp h with heq | hrest
        . exact .inl heq
        . exact .inr (List.mem_cons_of_mem first hrest)
      . rcases List.mem_cons.mp h with rfl | hrest
        . exact .inr List.mem_cons_self
        . exact (ih hrest).imp_right (List.mem_cons_of_mem first)

theorem ascending_set_go (key : String) (value : α) {entries : List (String × α)}
    (h : entries.Pairwise fun entry other => entry.1 < other.1) :
    (set.go key value entries).Pairwise fun entry other => entry.1 < other.1 := by
  induction entries with
  | nil => exact List.pairwise_singleton _ _
  | cons first rest ih =>
    obtain ⟨hfirst, hrest⟩ := List.pairwise_cons.mp h
    rw [set.go]
    split
    . next hlt =>
      refine List.pairwise_cons.mpr ⟨fun other hother => ?_, h⟩
      rcases List.mem_cons.mp hother with rfl | hother
      . exact hlt
      . exact String.lt_trans hlt (hfirst other hother)
    . next hnot =>
      split
      . next heq =>
        obtain rfl := beq_iff_eq.mp heq
        exact List.pairwise_cons.mpr ⟨hfirst, hrest⟩
      . next hne =>
        refine List.pairwise_cons.mpr ⟨fun other hother => ?_, ih hrest⟩
        rcases mem_set_go hother with rfl | hother
        . exact Std.lt_of_le_of_ne (String.not_lt.mp hnot) fun heq => hne (beq_iff_eq.mpr heq.symm)
        . exact hfirst other hother

/--
Store `value` under `key`, in the place of the value that was there.
-/
def set (dict : Dict α) (key : String) (value : α) : Dict α :=
  ⟨set.go key value dict.entries, ascending_set_go key value dict.ascending⟩

def erase (dict : Dict α) (key : String) : Dict α :=
  ⟨dict.entries.filter (·.1 != key), dict.ascending.filter _⟩

/--
Store the entries of a list one after the other; the last value under a key stays.
-/
def setAll (dict : Dict α) (entries : List (String × α)) : Dict α :=
  entries.foldl (fun dict entry => dict.set entry.1 entry.2) dict

def ofList (entries : List (String × α)) : Dict α :=
  empty.setAll entries

/--
Store all entries of `other` in `dict`.
-/
def extend (dict other : Dict α) : Dict α :=
  dict.setAll other.entries

def mapValues (dict : Dict α) (f : α → β) : Dict β :=
  ⟨dict.entries.map fun entry => (entry.1, f entry.2), List.pairwise_map.mpr dict.ascending⟩

section Lookup

variable {dict : Dict α} {key : String} {value : α} {entry : String × α} {entries : List (String × α)}

theorem lookup_cons (entry : String × α) (entries : List (String × α)) (key : String) :
    (entry :: entries).lookup key = if key = entry.1 then some entry.2 else entries.lookup key := by
  rw [List.lookup_cons]
  split
  . next heq => rw [if_pos (beq_iff_eq.mp heq)]
  . next hne => rw [if_neg (beq_eq_false_iff_ne.mp hne)]

/--
The first of some ascending keys does not come again.
-/
theorem lookup_rest (h : (entry :: entries).Pairwise fun entry other => entry.1 < other.1) :
    entries.lookup entry.1 = none := by
  rw [List.lookup_eq_none_iff]
  intro other hother
  rw [bne_iff_ne]
  intro heq
  have hlt := (List.pairwise_cons.mp h).1 other hother
  rw [heq] at hlt
  exact String.lt_irrefl _ hlt

theorem lookup_eq_some_iff (h : entries.Pairwise fun entry other => entry.1 < other.1) :
    entries.lookup key = some value ↔ (key, value) ∈ entries := by
  induction entries with
  | nil => simp
  | cons entry rest ih =>
    rw [lookup_cons, List.mem_cons, ← ih (List.pairwise_cons.mp h).2]
    split
    . next heq => simp [heq, lookup_rest h, Prod.ext_iff, eq_comm]
    . next hne => simp [Prod.ext_iff, hne]

theorem get?_eq_some_iff : dict.get? key = some value ↔ (key, value) ∈ dict.entries :=
  lookup_eq_some_iff dict.ascending

theorem get?_set (dict : Dict α) (key : String) (value : α) (other : String) :
    (dict.set key value).get? other = if other = key then some value else dict.get? other := by
  unfold get? set
  dsimp only
  induction dict.entries with
  | nil => rw [set.go, lookup_cons]
  | cons entry rest ih =>
    rw [set.go]
    split
    . rw [lookup_cons]
    . split
      . next heq =>
        rw [lookup_cons, lookup_cons, beq_iff_eq.mp heq]
        split <;> rfl
      . next hne =>
        rw [lookup_cons, lookup_cons, ih]
        split
        . next heq =>
          rw [if_neg]
          rintro rfl
          exact hne (beq_iff_eq.mpr heq)
        . rfl

theorem get?_setAll (h : entries.Pairwise fun entry other => entry.1 < other.1) (dict : Dict α) (key : String) :
    (dict.setAll entries).get? key = (entries.lookup key).or (dict.get? key) := by
  unfold setAll
  induction entries generalizing dict with
  | nil => rfl
  | cons entry rest ih =>
    rw [List.foldl_cons, ih (List.pairwise_cons.mp h).2, get?_set, lookup_cons]
    split
    . next heq =>
      rw [heq, lookup_rest h]
      rfl
    . rfl

/--
The values of the dictionary that is copied go before those that were there.
-/
theorem get?_extend (dict other : Dict α) (key : String) :
    (dict.extend other).get? key = (other.get? key).or (dict.get? key) := by
  apply get?_setAll
  exact other.ascending

theorem get?_mapValues (dict : Dict α) (f : α → β) (key : String) :
    (dict.mapValues f).get? key = (dict.get? key).map f := by
  unfold get? mapValues
  dsimp only
  induction dict.entries with
  | nil => rfl
  | cons entry rest ih =>
    rw [List.map_cons, lookup_cons, lookup_cons, ih]
    split <;> rfl

end Lookup

end Dict

end Highlight
