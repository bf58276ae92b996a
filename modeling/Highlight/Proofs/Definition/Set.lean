import Highlight.Definition.Bundled
import Highlight.Proofs.Text.Case
import Highlight.Proofs.Text.Words

/-!
Sets of languages grow, and only by languages with new names. So a language is found by its name if it was ever taken
into the set, and what an extension stands for does not change any more.
-/

namespace Highlight

namespace Definition

variable {definition : Definition} {extension other : String}

/--
There is more than blanks in the name of a language.
-/
def IsNamed (definition : Definition) : Prop :=
  ∃ c ∈ definition.name.toList, Blank.isBlank c = false

instance (definition : Definition) : Decidable definition.IsNamed :=
  List.decidableBEx (Blank.isBlank · = false) definition.name.toList

/--
A language lists an extension, with or without a leading point and in any case.
-/
def Lists (definition : Definition) (extension : String) : Prop :=
  ∃ own ∈ definition.extensions, SameButForCase (bareExtension own) (bareExtension extension)

instance (definition : Definition) (extension : String) : Decidable (definition.Lists extension) :=
  inferInstanceAs (Decidable (∃ own ∈ definition.extensions, SameButForCase (bareExtension own) (bareExtension extension)))

theorem isEmpty_trim_iff : (Blank.trim definition.name.toList).isEmpty = true ↔ ¬ definition.IsNamed := by
  rw [List.isEmpty_iff, Blank.trim_eq_nil_iff, IsNamed]
  simp

theorem claims_iff : definition.claims extension = true ↔ definition.Lists extension := by
  simp [claims, Lists, sameIgnoringCase_iff]

theorem toList_bareExtension (extension : String) :
    (bareExtension extension).toList
      = if extension.toList.head? = some '.' then extension.toList.tail else extension.toList := by
  unfold bareExtension
  split
  . next hlist => simp [hlist]
  . next hlist =>
    rw [if_neg]
    intro hhead
    obtain ⟨rest, hrest⟩ := List.head?_eq_some_iff.mp hhead
    exact hlist rest hrest

theorem bareExtension_append (h : extension.toList.head? ≠ some '.') :
    bareExtension ("." ++ extension) = bareExtension extension := by
  rw [← String.toList_inj, toList_bareExtension, toList_bareExtension, if_neg h, String.toList_append]
  simp

/--
A point has no case, so no other spelling brings one or takes one away.
-/
theorem eq_point_iff {c d : Char} (h : SameLetter c d) : c = '.' ↔ d = '.' := by
  have hpoint : '.'.toNat = 46 := rfl
  rw [← Char.toNat_inj, ← Char.toNat_inj, hpoint]
  rcases h with rfl | ⟨hupper, heq⟩ | ⟨hupper, heq⟩
  . rfl
  all_goals
    rw [isUpper_iff] at hupper
    omega

theorem sameButForCase_bareExtension (h : SameButForCase extension other) :
    SameButForCase (bareExtension extension) (bareExtension other) := by
  unfold SameButForCase at h ⊢
  rw [toList_bareExtension, toList_bareExtension]
  generalize extension.toList = cs at h ⊢
  generalize other.toList = ds at h ⊢
  cases h with
  | nil => simp
  | cons hletter hrest =>
    simp only [List.head?_cons, List.tail_cons, Option.some_inj, eq_point_iff hletter]
    split
    . exact hrest
    . exact .cons hletter hrest

theorem lists_congr (h : SameButForCase extension other) : definition.Lists extension ↔ definition.Lists other := by
  have hbare := sameButForCase_bareExtension h
  unfold Lists
  constructor
  . rintro ⟨own, hown, hsame⟩
    exact ⟨own, hown, hsame.trans hbare⟩
  . rintro ⟨own, hown, hsame⟩
    exact ⟨own, hown, hsame.trans hbare.symm⟩

theorem lists_append_iff (h : extension.toList.head? ≠ some '.') :
    definition.Lists ("." ++ extension) ↔ definition.Lists extension := by
  unfold Lists
  rw [bareExtension_append h]

end Definition

namespace LanguageSet

open Definition

variable {parse : String → Except DefinitionError Definition} {set grown : LanguageSet} {definition : Definition}
  {error : DefinitionError} {name extension : String}

section Insert

/--
A set has a language of this name, in any case.
-/
def Has (set : LanguageSet) (name : String) : Prop :=
  ∃ stored ∈ set.definitions, SameButForCase stored.name name

instance (set : LanguageSet) (name : String) : Decidable (set.Has name) :=
  inferInstanceAs (Decidable (∃ stored ∈ set.definitions, SameButForCase stored.name name))

theorem isSome_get?_iff : (set.get? name).isSome = true ↔ set.Has name := by
  simp [get?, Has, sameIgnoringCase_iff]

theorem insert_eq (set : LanguageSet) (definition : Definition) :
    set.insert definition
      = if ¬ definition.IsNamed then .error (.missingField "name")
        else if set.Has definition.name then .error (.duplicate definition.name)
        else .ok ⟨set.definitions ++ [definition]⟩ := by
  unfold insert
  simp only [isEmpty_trim_iff, isSome_get?_iff]

/--
Why a set does not take a definition.
-/
def Refuses (set : LanguageSet) (definition : Definition) (error : DefinitionError) : Prop :=
  (¬ definition.IsNamed ∧ error = .missingField "name")
    ∨ (definition.IsNamed ∧ set.Has definition.name ∧ error = .duplicate definition.name)

theorem insert_eq_error_iff : set.insert definition = .error error ↔ set.Refuses definition error := by
  rw [insert_eq, Refuses]
  split
  . next hblank => simp [hblank, eq_comm]
  . next hnamed =>
    rw [Decidable.not_not] at hnamed
    split
    . next hhas => simp [hnamed, hhas, eq_comm]
    . next hnew => simp [hnew, hnamed]

theorem insert_eq_ok_iff : set.insert definition = .ok grown
    ↔ definition.IsNamed ∧ ¬ set.Has definition.name ∧ grown.definitions = set.definitions ++ [definition] := by
  rw [insert_eq]
  split
  . next hblank => simp [hblank]
  . next hnamed =>
    rw [Decidable.not_not] at hnamed
    split
    . next hhas => simp [hhas]
    . next hnew =>
      obtain ⟨definitions⟩ := grown
      simp [hnew, hnamed, eq_comm]

end Insert

section Lookup

/--
Languages with names that tell them apart.
-/
structure Distinct (set : LanguageSet) : Prop where
  named : ∀ definition ∈ set.definitions, definition.IsNamed
  names : set.definitions.Pairwise fun stored other => ¬ SameButForCase stored.name other.name

theorem distinct_empty : empty.Distinct :=
  ⟨nofun, .nil⟩

theorem Distinct.insert (h : set.Distinct) (hinsert : set.insert definition = .ok grown) : grown.Distinct := by
  obtain ⟨hnamed, hnew, hdefinitions⟩ := insert_eq_ok_iff.mp hinsert
  constructor
  . rw [hdefinitions]
    intro stored hstored
    rcases List.mem_append.mp hstored with hstored | hstored
    . exact h.named stored hstored
    . rw [List.mem_singleton.mp hstored]
      exact hnamed
  . rw [hdefinitions, List.pairwise_append]
    refine ⟨h.names, List.pairwise_singleton _ _, ?_⟩
    intro stored hstored other hother hsame
    rw [List.mem_singleton.mp hother] at hsame
    exact hnew ⟨stored, hstored, hsame⟩

theorem Distinct.get?_eq_some_iff (h : set.Distinct) :
    set.get? name = some definition ↔ definition ∈ set.definitions ∧ SameButForCase definition.name name := by
  apply find?_sameIgnoringCase_iff
  exact h.names

theorem forExtension?_eq_some_iff : set.forExtension? extension = some definition
    ↔ ∃ earlier later, set.definitions = earlier ++ definition :: later ∧ definition.Lists extension
      ∧ ∀ other ∈ earlier, ¬ other.Lists extension := by
  unfold forExtension?
  rw [List.find?_eq_some_iff_append, claims_iff]
  constructor
  . rintro ⟨hlists, earlier, later, heq, hearlier⟩
    refine ⟨earlier, later, heq, hlists, ?_⟩
    simpa [← claims_iff] using hearlier
  . rintro ⟨earlier, later, heq, hlists, hearlier⟩
    refine ⟨hlists, earlier, later, heq, ?_⟩
    simpa [← claims_iff] using hearlier

theorem forExtension?_congr {other : String} (h : ∀ definition : Definition, definition.Lists extension ↔ definition.Lists other) :
    set.forExtension? extension = set.forExtension? other := by
  unfold forExtension?
  congr
  funext definition
  rw [Bool.eq_iff_iff, claims_iff, claims_iff]
  exact h definition

end Lookup

section Requests

/--
What is asked of a set: to take the language that a text describes, or one that was read before.
-/
inductive Request where
  | load (text : String)
  | insert (definition : Definition)

def Request.read (parse : String → Except DefinitionError Definition) (request : Request) : Except DefinitionError Definition :=
  match request with
  | .load text => parse text
  | .insert definition => .ok definition

variable (parse : String → Except DefinitionError Definition) (set : LanguageSet)

def answer (request : Request) : Except DefinitionError (LanguageSet × Definition) :=
  match request with
  | .load text => set.loadWith parse text
  | .insert definition => (set.insert definition).map fun set => (set, definition)

/--
The set behind a request. One that fails leaves the set as it was.
-/
def next (request : Request) : LanguageSet :=
  match set.answer parse request with
  | .ok (grown, _) => grown
  | .error _ => set

def after (requests : List Request) : LanguageSet :=
  requests.foldl (next parse) set

/--
The languages that are taken, one for each of the requests that do not fail.
-/
def taken (set : LanguageSet) (requests : List Request) : List Definition :=
  match requests with
  | [] => []
  | request :: requests =>
    match set.answer parse request with
    | .ok (grown, definition) => definition :: taken grown requests
    | .error _ => taken set requests

variable {parse set} {request : Request}

theorem answer_eq (parse : String → Except DefinitionError Definition) (set : LanguageSet) (request : Request) :
    set.answer parse request = (request.read parse).bind fun definition =>
      (set.insert definition).map fun set => (set, definition) := by
  cases request with
  | load text =>
    simp [answer, Request.read, loadWith]
    rfl
  | insert definition => rfl

theorem answer_eq_ok_iff : set.answer parse request = .ok (grown, definition)
    ↔ request.read parse = .ok definition ∧ set.insert definition = .ok grown := by
  rw [answer_eq]
  constructor
  . intro h
    cases hread : request.read parse with
    | error error => simp [hread, Except.bind] at h
    | ok read =>
      cases hinsert : set.insert read with
      | error error => simp [hread, hinsert, Except.bind, Except.map] at h
      | ok added =>
        simp only [hread, hinsert, Except.bind, Except.map, Except.ok.injEq, Prod.mk.injEq] at h
        obtain ⟨rfl, rfl⟩ := h
        exact ⟨rfl, hinsert⟩
  . rintro ⟨hread, hinsert⟩
    simp [hread, hinsert, Except.bind, Except.map]

theorem answer_eq_error_iff : set.answer parse request = .error error
    ↔ request.read parse = .error error ∨ ∃ definition, request.read parse = .ok definition ∧ set.Refuses definition error := by
  rw [answer_eq]
  cases request.read parse with
  | error error => simp [Except.bind]
  | ok read =>
    simp only [Except.bind, Except.ok.injEq, exists_eq_left', ← insert_eq_error_iff]
    cases set.insert read with
    | error error => simp [Except.map]
    | ok added => simp [Except.map]

theorem next_of_ok (h : set.answer parse request = .ok (grown, definition)) : set.next parse request = grown := by
  simp [next, h]

theorem next_of_error (h : set.answer parse request = .error error) : set.next parse request = set := by
  simp [next, h]

/--
A request adds its language behind the others, or changes nothing.
-/
theorem definitions_after (parse : String → Except DefinitionError Definition) (set : LanguageSet) (requests : List Request) :
    (set.after parse requests).definitions = set.definitions ++ set.taken parse requests := by
  induction requests generalizing set with
  | nil => simp [after, taken]
  | cons request requests ih =>
    have hafter : set.after parse (request :: requests) = (set.next parse request).after parse requests := rfl
    rw [hafter, ih, taken]
    cases hanswer : set.answer parse request with
    | error error => rw [next_of_error hanswer]
    | ok added =>
      obtain ⟨grown, definition⟩ := added
      obtain ⟨_, hinsert⟩ := answer_eq_ok_iff.mp hanswer
      obtain ⟨_, _, hdefinitions⟩ := insert_eq_ok_iff.mp hinsert
      rw [next_of_ok hanswer, hdefinitions]
      simp

theorem Distinct.next (h : set.Distinct) (parse : String → Except DefinitionError Definition) (request : Request) :
    (set.next parse request).Distinct := by
  cases hanswer : set.answer parse request with
  | error error =>
    rw [next_of_error hanswer]
    exact h
  | ok added =>
    obtain ⟨grown, definition⟩ := added
    rw [next_of_ok hanswer]
    exact h.insert (answer_eq_ok_iff.mp hanswer).2

theorem Distinct.after (h : set.Distinct) (parse : String → Except DefinitionError Definition) (requests : List Request) :
    (set.after parse requests).Distinct := by
  induction requests generalizing set with
  | nil => exact h
  | cons request requests ih => exact ih (h.next parse request)

theorem distinct_bundled : bundled.Distinct :=
  ⟨by decide +kernel, by decide +kernel⟩

/--
Whatever has been asked of a set that was empty or had the bundled languages first, and whatever texts are read as: its
languages are those that were taken, in their order, and they have names that tell them apart. A request fails if its text
cannot be read, or the name is blank or that of a language in the set, and then changes nothing; otherwise it adds its
language. A language is found by its name if it was ever taken, and an extension is that of the first language taken that
lists it.
-/
theorem grows_by_new_languages (parse : String → Except DefinitionError Definition) (start : LanguageSet)
    (hstart : start = .empty ∨ start = .bundled) (requests : List Request) :
    let set := start.after parse requests
    let loaded := start.definitions ++ start.taken parse requests
    set.definitions = loaded
      ∧ (∀ definition ∈ set.definitions, definition.IsNamed)
      ∧ set.definitions.Pairwise (fun stored other => ¬ SameButForCase stored.name other.name)
      ∧ (∀ request error, set.answer parse request = .error error
        ↔ request.read parse = .error error ∨ ∃ definition, request.read parse = .ok definition ∧ set.Refuses definition error)
      ∧ (∀ request error, set.answer parse request = .error error → set.next parse request = set)
      ∧ (∀ request grown definition, set.answer parse request = .ok (grown, definition) →
        set.next parse request = grown ∧ request.read parse = .ok definition ∧ grown.definitions = set.definitions ++ [definition])
      ∧ (∀ name definition, set.get? name = some definition ↔ definition ∈ loaded ∧ SameButForCase definition.name name)
      ∧ (∀ extension definition, set.forExtension? extension = some definition
        ↔ ∃ earlier later, loaded = earlier ++ definition :: later ∧ definition.Lists extension
          ∧ ∀ other ∈ earlier, ¬ other.Lists extension)
      ∧ (∀ extension other, SameButForCase extension other → set.forExtension? extension = set.forExtension? other)
      ∧ ∀ extension, extension.toList.head? ≠ some '.' →
        set.forExtension? ("." ++ extension) = set.forExtension? extension := by
  intro set loaded
  have hloaded : set.definitions = loaded := definitions_after parse start requests
  have hstartDistinct : start.Distinct := by
    rcases hstart with rfl | rfl
    . exact distinct_empty
    . exact distinct_bundled
  have hdistinct : set.Distinct := hstartDistinct.after parse requests
  refine ⟨hloaded, hdistinct.named, hdistinct.names, ?_, ?_, ?_, ?_, ?_, ?_, ?_⟩
  . intro request error
    exact answer_eq_error_iff
  . intro request error herror
    exact next_of_error herror
  . intro request grown definition hok
    obtain ⟨hread, hinsert⟩ := answer_eq_ok_iff.mp hok
    obtain ⟨_, _, hdefinitions⟩ := insert_eq_ok_iff.mp hinsert
    exact ⟨next_of_ok hok, hread, hdefinitions⟩
  . intro name definition
    rw [← hloaded]
    exact hdistinct.get?_eq_some_iff
  . intro extension definition
    rw [← hloaded]
    exact forExtension?_eq_some_iff
  . intro extension other hsame
    apply forExtension?_congr
    intro definition
    exact lists_congr hsame
  . intro extension hpoint
    apply forExtension?_congr
    intro definition
    exact lists_append_iff hpoint

/--
The bundled languages and one that lists an extension of theirs. Neither a text that is no definition nor another spelling
of a bundled name is taken.
-/
theorem grows_by_new_languages_toy :
    let toy : Definition := ⟨"toy", none, [".RS", "toy"], .empty, .empty⟩
    let parse := fun text => if text = "toy" then .ok toy else .error .malformed
    let set := bundled.after parse [.load "toys", .load "toy"]
    (bundled = .empty ∨ bundled = .bundled)
      ∧ set.get? "tOY" = some toy ∧ set.forExtension? ".Toy" = some toy ∧ set.forExtension? ".Rs" = some Definition.rust
      ∧ set.answer parse (.load "toys") = .error .malformed
      ∧ set.answer parse (.insert ⟨"SQL", none, [], .empty, .empty⟩) = .error (.duplicate "SQL") := by
  intro toy parse set
  have htaken : bundled.taken parse [.load "toys", .load "toy"] = [toy] := by decide +kernel
  have hgrows := grows_by_new_languages parse bundled (.inr rfl) [.load "toys", .load "toy"]
  dsimp only at hgrows
  rw [htaken] at hgrows
  obtain ⟨hdefinitions, _, _, hanswer, _, _, hget, hextension, _⟩ := hgrows
  refine ⟨.inr rfl, ?_, ?_, ?_, ?_, ?_⟩
  . rw [hget]
    exact ⟨by simp, by decide +kernel⟩
  . rw [hextension]
    exact ⟨Definition.bundled, [], rfl, by decide +kernel, by decide +kernel⟩
  . rw [hextension]
    exact ⟨[], _, rfl, by decide +kernel, by simp⟩
  . rw [hanswer]
    left
    decide +kernel
  . rw [hanswer]
    right
    refine ⟨_, rfl, .inr ⟨by decide +kernel, ⟨Definition.sql, ?_, by decide +kernel⟩, rfl⟩⟩
    rw [hdefinitions]
    simp [bundled, Definition.bundled]

end Requests

end LanguageSet

end Highlight
