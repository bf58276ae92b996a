import Highlight.Proofs.Text.Case
import Highlight.Proofs.WordList
import Highlight.Session

/-!
A session is made from a definition if its language is known and has all the keyword lists that the definition fills. It
has the words and the options of the definition then, all of them and no others.
-/

namespace Highlight

section Known

variable {lexer : Lexer} {language : Language} {name key : String} {index : Nat} {slot : KeywordSlot}

theorem Language.mem_all (language : Language) : language ∈ all := by
  cases language <;> decide

/--
The names of the languages differ in more than case, so that a name stands for one of them at most.
-/
theorem Language.names_differ : all.Pairwise fun language other => ¬ SameButForCase language.lexer.name other.lexer.name := by
  decide +kernel

theorem Language.ofName?_eq_some_iff : ofName? name = some language ↔ SameButForCase language.lexer.name name := by
  have hfind := @find?_sameIgnoringCase_iff name Language (·.lexer.name) all language names_differ
  rw [ofName?, hfind, and_iff_right (mem_all language)]

theorem Language.ofName?_eq_none_iff : ofName? name = none ↔ ∀ language : Language, ¬ SameButForCase language.lexer.name name := by
  simp [ofName?, sameIgnoringCase_eq_false_iff, mem_all]

namespace Lexer

/--
There is a keyword list with the key `key`.
-/
def Declares (lexer : Lexer) (key : String) : Prop :=
  ∃ slot ∈ lexer.slots, slot.key = key

instance (lexer : Lexer) (key : String) : Decidable (lexer.Declares key) :=
  inferInstanceAs (Decidable (∃ slot ∈ lexer.slots, slot.key = key))

theorem slotIndex?_eq_none_iff : lexer.slotIndex? key = none ↔ ¬ lexer.Declares key := by
  simp [slotIndex?, Declares]

theorem exists_slotIndex? (h : lexer.Declares key) : ∃ index, lexer.slotIndex? key = some index := by
  cases hindex : lexer.slotIndex? key with
  | none => exact absurd h (slotIndex?_eq_none_iff.mp hindex)
  | some index => exact ⟨index, rfl⟩

theorem getElem?_of_slotIndex? (h : lexer.slotIndex? key = some index) :
    ∃ slot, lexer.slots[index]? = some slot ∧ slot.key = key := by
  obtain ⟨hindex, hkey, _⟩ := List.findIdx?_eq_some_iff_getElem.mp h
  refine ⟨lexer.slots[index], List.getElem?_eq_getElem hindex, ?_⟩
  simpa using hkey

theorem lt_length_of_slotIndex? (h : lexer.slotIndex? key = some index) : index < lexer.slots.length := by
  obtain ⟨slot, hslot, _⟩ := getElem?_of_slotIndex? h
  exact (List.getElem?_eq_some_iff.mp hslot).1

theorem slotIndex?_of_getElem? (hnodup : (lexer.slots.map (·.key)).Nodup) (h : lexer.slots[index]? = some slot) :
    lexer.slotIndex? slot.key = some index := by
  obtain ⟨found, hfound⟩ := exists_slotIndex? ⟨slot, List.mem_of_getElem? h, rfl⟩
  obtain ⟨other, hother, hkey⟩ := getElem?_of_slotIndex? hfound
  have hkeys : (lexer.slots.map (·.key))[found]? = (lexer.slots.map (·.key))[index]? := by
    simp [h, hother, hkey]
  have hlt : found < (lexer.slots.map (·.key)).length := by
    simpa using lt_length_of_slotIndex? hfound
  rw [hfound, (List.getElem?_inj hlt hnodup).mp hkeys]

end Lexer

theorem Language.nodup_keys (language : Language) : (language.lexer.slots.map (·.key)).Nodup := by
  cases language <;> decide

end Known

namespace KeywordSource

variable {source : KeywordSource} {word : String}

/--
The texts in which the words of a list are given.
-/
def parts (source : KeywordSource) : List String :=
  match source with
  | .text listed => [listed]
  | .words listed => listed

/--
No word is lost or changed where the words are given one by one, or where some of them are given together.
-/
theorem mem_ofText_toText : word ∈ (WordList.ofText source.toText).words
    ↔ ∃ part ∈ source.parts, Blank.IsWordOf word.toList part.toList := by
  rw [WordList.mem_ofText]
  cases source with
  | text listed => simp [toText, parts, Blank.mem_words_iff]
  | words listed => simp [toText, parts, Blank.words_intercalate, Blank.mem_words_iff]

end KeywordSource

namespace Definition

variable {definition : Definition} {language : Language} {entry : String × KeywordSource} {key : String}

/--
There are words under a key for which the language has no list.
-/
def Undeclared (definition : Definition) (language : Language) (key : String) : Prop :=
  (definition.keywords.get? key).isSome ∧ ¬ language.lexer.Declares key

/--
The smallest of these keys.
-/
structure LeastUndeclared (definition : Definition) (language : Language) (key : String) : Prop where
  undeclared : definition.Undeclared language key
  least : ∀ other, definition.Undeclared language other → ¬ other < key

theorem undeclared_of_mem (h : entry ∈ definition.keywords.entries) (hentry : ¬ language.lexer.Declares entry.1) :
    definition.Undeclared language entry.1 := by
  refine ⟨?_, hentry⟩
  rw [Dict.get?_eq_some_iff.mpr h]
  rfl

theorem Undeclared.exists_mem (h : definition.Undeclared language key) :
    ∃ source, (key, source) ∈ definition.keywords.entries := by
  obtain ⟨source, hsource⟩ := Option.isSome_iff_exists.mp h.1
  exact ⟨source, Dict.get?_eq_some_iff.mp hsource⟩

theorem exists_leastUndeclared (h : definition.Undeclared language key) : ∃ least, definition.LeastUndeclared language least := by
  obtain ⟨source, hmem⟩ := h.exists_mem
  cases hfind : definition.keywords.entries.find? fun entry => !decide (language.lexer.Declares entry.1) with
  | none =>
    have hall := List.find?_eq_none.mp hfind _ hmem
    simp [h.2] at hall
  | some entry =>
    obtain ⟨hentry, front, back, hentries, hfront⟩ := List.find?_eq_some_iff_append.mp hfind
    have hascending := definition.keywords.ascending
    rw [hentries] at hascending
    refine ⟨entry.1, undeclared_of_mem (List.mem_of_find?_eq_some hfind) (by simpa using hentry), ?_⟩
    -- Smaller keys stand in front, and none of them is undeclared.
    intro other hother hlt
    obtain ⟨source', hmem'⟩ := hother.exists_mem
    rw [hentries, List.mem_append, List.mem_cons] at hmem'
    rcases hmem' with hmem' | rfl | hmem'
    . have hdeclared := hfront _ hmem'
      simp [hother.2] at hdeclared
    . exact String.lt_irrefl _ hlt
    . have hbehind := (List.pairwise_cons.mp (List.pairwise_append.mp hascending).2.1).1 _ hmem'
      exact String.lt_irrefl _ (String.lt_trans hlt hbehind)

end Definition

namespace Session

variable {session filled : Session} {entry : String × KeywordSource} {front entries : List (String × KeywordSource)}
  {definition : Definition} {language : Language} {key : String} {index : Nat}

section Fill

/--
Fill one keyword list with the words that a definition has under its key.
-/
def fill (session : Session) (entry : String × KeywordSource) : Except SessionError Session := do
  let filled ← session.setKeywordsByKey entry.1 entry.2.toText
  pure filled.1

theorem ofDefinition_eq (definition : Definition) :
    ofDefinition definition = (ofName definition.lexerName).bind fun session =>
      (definition.keywords.entries.foldlM fill session).map fun session => { session with options := definition.optionTexts } :=
  rfl

theorem fill_of_slotIndex? (h : session.lexer.slotIndex? entry.1 = some index) (hindex : index < session.keywords.size) :
    session.fill entry
      = .ok { session with keywords := session.keywords.setIfInBounds index (WordList.ofText entry.2.toText) } := by
  have hlist : session.keywords[index]? = some session.keywords[index] := Array.getElem?_eq_getElem hindex
  simp [fill, setKeywordsByKey, h, setKeywords, hlist, WordList.set, bind, Except.bind, pure, Except.pure]

theorem fill_of_not_declares (h : ¬ session.lexer.Declares entry.1) :
    session.fill entry = .error (.unknownKeywords session.lexer.name entry.1) := by
  rw [← Lexer.slotIndex?_eq_none_iff] at h
  simp [fill, setKeywordsByKey, h, bind, Except.bind]

/--
What becomes of a session when the words of some entries are filled in.
-/
structure Filled (session : Session) (entries : List (String × KeywordSource)) (filled : Session) : Prop where
  lexer : filled.lexer = session.lexer
  size : filled.keywords.size = session.keywords.size
  list : ∀ {key index}, session.lexer.slotIndex? key = some index → index < session.keywords.size →
    filled.keywords[index]? = ((entries.lookup key).map fun source => WordList.ofText source.toText).or session.keywords[index]?

theorem Filled.nil (session : Session) : session.Filled [] session :=
  ⟨rfl, rfl, by intros; simp⟩

/--
Entries of other keys fill other lists.
-/
theorem Filled.cons (hindex : session.lexer.slotIndex? entry.1 = some index)
    (hascending : (entry :: entries).Pairwise fun entry other => entry.1 < other.1)
    (h : Filled { session with keywords := session.keywords.setIfInBounds index (WordList.ofText entry.2.toText) } entries filled) :
    session.Filled (entry :: entries) filled := by
  refine ⟨h.lexer, ?_, ?_⟩
  . rw [h.size, Array.size_setIfInBounds]
  . intro key other hother hlt
    rw [h.list hother (by simpa using hlt), Dict.lookup_cons, Array.getElem?_setIfInBounds]
    split
    . next heq =>
      have hkey : key = entry.1 := by
        obtain ⟨slot, hslot, rfl⟩ := Lexer.getElem?_of_slotIndex? hother
        obtain ⟨slot', hslot', hentry⟩ := Lexer.getElem?_of_slotIndex? hindex
        rw [← heq, hslot', Option.some_inj] at hslot
        rw [← hslot, hentry]
      rw [heq, if_pos hlt, hkey, Dict.lookup_rest hascending, if_pos rfl]
      simp
    . next hne =>
      rw [if_neg]
      rintro rfl
      rw [hindex, Option.some_inj] at hother
      exact hne hother

theorem exists_filled (session : Session) (hsize : session.keywords.size = session.lexer.slots.length)
    (hascending : entries.Pairwise fun entry other => entry.1 < other.1)
    (hdeclared : ∀ entry ∈ entries, session.lexer.Declares entry.1) :
    ∃ filled, entries.foldlM fill session = .ok filled ∧ session.Filled entries filled := by
  induction entries generalizing session with
  | nil => exact ⟨session, rfl, .nil session⟩
  | cons entry entries ih =>
    obtain ⟨index, hindex⟩ := Lexer.exists_slotIndex? (hdeclared entry List.mem_cons_self)
    have hlt : index < session.keywords.size := by
      rw [hsize]
      exact Lexer.lt_length_of_slotIndex? hindex
    obtain ⟨filled, hfold, hfilled⟩ := ih
      { session with keywords := session.keywords.setIfInBounds index (WordList.ofText entry.2.toText) }
      (by simpa using hsize) (List.pairwise_cons.mp hascending).2 (fun other hother => hdeclared other (List.mem_cons_of_mem _ hother))
    refine ⟨filled, ?_, hfilled.cons hindex hascending⟩
    rw [List.foldlM_cons, fill_of_slotIndex? hindex hlt]
    exact hfold

/--
Filling stops at the first key that is not declared.
-/
theorem foldlM_fill_of_not_declares (session : Session) (hsize : session.keywords.size = session.lexer.slots.length)
    (hascending : (front ++ entry :: entries).Pairwise fun entry other => entry.1 < other.1)
    (hdeclared : ∀ entry ∈ front, session.lexer.Declares entry.1) (hentry : ¬ session.lexer.Declares entry.1) :
    (front ++ entry :: entries).foldlM fill session = .error (.unknownKeywords session.lexer.name entry.1) := by
  obtain ⟨filled, hfold, hfilled⟩ := exists_filled session hsize (List.pairwise_append.mp hascending).1 hdeclared
  have hentry' : ¬ filled.lexer.Declares entry.1 := by
    rw [hfilled.lexer]
    exact hentry
  rw [List.foldlM_append, hfold, ← hfilled.lexer]
  simp [bind, Except.bind, fill_of_not_declares hentry']

end Fill

section OfDefinition

theorem ofName_of_same (h : SameButForCase language.lexer.name name) : ofName name = .ok (ofLexer language.lexer) := by
  simp [ofName, Language.ofName?_eq_some_iff.mpr h]

theorem ofName_of_not_same (h : ∀ language : Language, ¬ SameButForCase language.lexer.name name) :
    ofName name = .error (.unknownLexer name) := by
  simp [ofName, Language.ofName?_eq_none_iff.mpr h]

/--
A session with all the words and options of a definition, and no others.
-/
structure Carries (session : Session) (language : Language) (definition : Definition) : Prop where
  lexer : session.lexer = language.lexer
  size : session.keywords.size = language.lexer.slots.length
  list : ∀ (index : Nat) (slot : KeywordSlot), language.lexer.slots[index]? = some slot →
    session.keywords[index]? = some ((definition.wordList? slot.key).getD .empty)
  option : ∀ key, session.options.get? key = (definition.options.get? key).map OptionValue.toText

theorem ofDefinition_of_unknown (h : ∀ language : Language, ¬ SameButForCase language.lexer.name definition.lexerName) :
    ofDefinition definition = .error (.unknownLexer definition.lexerName) := by
  rw [ofDefinition_eq, ofName_of_not_same h]
  rfl

theorem ofDefinition_of_leastUndeclared (hlanguage : SameButForCase language.lexer.name definition.lexerName)
    (hkey : definition.LeastUndeclared language key) :
    ofDefinition definition = .error (.unknownKeywords language.lexer.name key) := by
  obtain ⟨source, hmem⟩ := hkey.undeclared.exists_mem
  obtain ⟨front, entries, hentries⟩ := List.append_of_mem hmem
  have hascending := definition.keywords.ascending
  rw [hentries] at hascending
  have hfront : ∀ entry ∈ front, language.lexer.Declares entry.1 := by
    intro entry hentry
    by_contra hnot
    have hundeclared : definition.Undeclared language entry.1 := by
      apply Definition.undeclared_of_mem _ hnot
      rw [hentries]
      exact List.mem_append_left _ hentry
    exact hkey.least entry.1 hundeclared ((List.pairwise_append.mp hascending).2.2 entry hentry _ List.mem_cons_self)
  have hfold := foldlM_fill_of_not_declares (ofLexer language.lexer) (by simp [ofLexer]) hascending hfront hkey.undeclared.2
  rw [ofDefinition_eq, ofName_of_same hlanguage, hentries]
  simp only [Except.bind, hfold]
  rfl

theorem exists_carries (hlanguage : SameButForCase language.lexer.name definition.lexerName)
    (hdeclared : ∀ key, ¬ definition.Undeclared language key) :
    ∃ session, ofDefinition definition = .ok session ∧ session.Carries language definition := by
  have hentries : ∀ entry ∈ definition.keywords.entries, language.lexer.Declares entry.1 := by
    intro entry hentry
    by_contra hnot
    exact hdeclared entry.1 (Definition.undeclared_of_mem hentry hnot)
  obtain ⟨filled, hfold, hfilled⟩ :=
    exists_filled (ofLexer language.lexer) (by simp [ofLexer]) definition.keywords.ascending hentries
  refine ⟨{ filled with options := definition.optionTexts }, ?_, hfilled.lexer, ?_, ?_, ?_⟩
  . rw [ofDefinition_eq, ofName_of_same hlanguage]
    simp only [Except.bind, hfold]
    rfl
  . rw [hfilled.size]
    simp [ofLexer]
  . intro index slot hslot
    have hindex := Lexer.slotIndex?_of_getElem? language.nodup_keys hslot
    have hlt := Lexer.lt_length_of_slotIndex? hindex
    rw [hfilled.list hindex (by simpa [ofLexer] using hlt)]
    simp only [ofLexer, Definition.wordList?, Dict.get?]
    cases definition.keywords.entries.lookup slot.key with
    | none => simp [hlt]
    | some source => rfl
  . intro key
    exact Dict.get?_mapValues _ _ _

theorem Carries.mem_list_iff (h : session.Carries language definition) {slot : KeywordSlot}
    (hslot : language.lexer.slots[index]? = some slot) (word : String) :
    word ∈ (session.keywords.list index).words
      ↔ ∃ source, definition.keywords.get? slot.key = some source
        ∧ ∃ part ∈ source.parts, Blank.IsWordOf word.toList part.toList := by
  rw [Keywords.list, h.list index slot hslot, Option.getD_some, Definition.wordList?]
  cases definition.keywords.get? slot.key with
  | none => simp [WordList.empty]
  | some source => simp [KeywordSource.mem_ofText_toText]

/--
The three ways in which it can go.
-/
theorem ofDefinition_cases (definition : Definition) :
    ((∀ language : Language, ¬ SameButForCase language.lexer.name definition.lexerName)
        ∧ ofDefinition definition = .error (.unknownLexer definition.lexerName))
      ∨ (∃ language key, SameButForCase language.lexer.name definition.lexerName ∧ definition.LeastUndeclared language key
        ∧ ofDefinition definition = .error (.unknownKeywords language.lexer.name key))
      ∨ ∃ language session, SameButForCase language.lexer.name definition.lexerName
        ∧ (∀ key, ¬ definition.Undeclared language key)
        ∧ ofDefinition definition = .ok session ∧ session.Carries language definition := by
  by_cases hknown : ∃ language : Language, SameButForCase language.lexer.name definition.lexerName
  . obtain ⟨language, hlanguage⟩ := hknown
    right
    by_cases hundeclared : ∃ key, definition.Undeclared language key
    . obtain ⟨_, hkey⟩ := hundeclared
      obtain ⟨key, hleast⟩ := Definition.exists_leastUndeclared hkey
      exact .inl ⟨language, key, hlanguage, hleast, ofDefinition_of_leastUndeclared hlanguage hleast⟩
    . rw [not_exists] at hundeclared
      obtain ⟨session, hsession, hcarries⟩ := exists_carries hlanguage hundeclared
      exact .inr ⟨language, session, hlanguage, hundeclared, hsession, hcarries⟩
  . rw [not_exists] at hknown
    exact .inl ⟨hknown, ofDefinition_of_unknown hknown⟩

theorem carries_of_ofDefinition (h : ofDefinition definition = .ok session) :
    ∃ language, SameButForCase language.lexer.name definition.lexerName ∧ (∀ key, ¬ definition.Undeclared language key)
      ∧ session.Carries language definition := by
  rcases ofDefinition_cases definition with ⟨_, herror⟩ | ⟨_, _, _, _, herror⟩ | ⟨language, _, hlanguage, hdeclared, hok, hcarries⟩
  . cases h.symm.trans herror
  . cases h.symm.trans herror
  . cases h.symm.trans hok
    exact ⟨language, hlanguage, hdeclared, hcarries⟩

/--
There is a session for a definition if its lexer is that of a language, in any case, and each key of its words is one of
the lexer's; otherwise the error names the lexer, or the smallest key that the lexer has not. The session has the words of
the definition, in whatever way they are given, and its options.
-/
theorem ofDefinition_carries (definition : Definition) :
    ((∃ session, ofDefinition definition = .ok session)
        ↔ ∃ language : Language, SameButForCase language.lexer.name definition.lexerName
          ∧ ∀ key, (definition.keywords.get? key).isSome → language.lexer.Declares key)
      ∧ (∀ error, ofDefinition definition = .error error
        ↔ ((∀ language : Language, ¬ SameButForCase language.lexer.name definition.lexerName)
            ∧ error = .unknownLexer definition.lexerName)
          ∨ ∃ language key, SameButForCase language.lexer.name definition.lexerName
            ∧ definition.LeastUndeclared language key ∧ error = .unknownKeywords language.lexer.name key)
      ∧ ∀ session, ofDefinition definition = .ok session →
        ∃ language, SameButForCase language.lexer.name definition.lexerName ∧ session.Carries language definition
          ∧ ∀ (index : Nat) (slot : KeywordSlot) (word : String), language.lexer.slots[index]? = some slot →
            (word ∈ (session.keywords.list index).words
              ↔ ∃ source, definition.keywords.get? slot.key = some source
                ∧ ∃ part ∈ source.parts, Blank.IsWordOf word.toList part.toList) := by
  refine ⟨⟨?_, ?_⟩, ?_, ?_⟩
  . rintro ⟨session, hsession⟩
    obtain ⟨language, hlanguage, hdeclared, _⟩ := carries_of_ofDefinition hsession
    refine ⟨language, hlanguage, fun key hkey => ?_⟩
    by_contra hnot
    exact hdeclared key ⟨hkey, hnot⟩
  . rintro ⟨language, hlanguage, hdeclared⟩
    obtain ⟨session, hsession, _⟩ := exists_carries hlanguage fun key hkey => hkey.2 (hdeclared key hkey.1)
    exact ⟨session, hsession⟩
  . intro error
    constructor
    . intro h
      rcases ofDefinition_cases definition with ⟨hunknown, herror⟩ | ⟨language, key, hlanguage, hkey, herror⟩ | ⟨_, _, _, _, hok, _⟩
      . cases h.symm.trans herror
        exact .inl ⟨hunknown, rfl⟩
      . cases h.symm.trans herror
        exact .inr ⟨language, key, hlanguage, hkey, rfl⟩
      . cases h.symm.trans hok
    . rintro (⟨hunknown, rfl⟩ | ⟨language, key, hlanguage, hkey, rfl⟩)
      . exact ofDefinition_of_unknown hunknown
      . exact ofDefinition_of_leastUndeclared hlanguage hkey
  . intro session hsession
    obtain ⟨language, hlanguage, _, hcarries⟩ := carries_of_ofDefinition hsession
    exact ⟨language, hlanguage, hcarries, fun index slot word hslot => hcarries.mem_list_iff hslot word⟩

/--
Words for a language in capitals, which are given one by one, but some of them together. Under another key they would not
be taken.
-/
theorem ofDefinition_carries_listed :
    let definition (key : String) : Definition :=
      ⟨"other", some "SQL", [], .ofList [(key, .words ["see", " author\tsee", ""])], .ofList [("fold", .switch true)]⟩
    (∃ session, ofDefinition (definition "pldoc") = .ok session ∧ "author" ∈ (session.keywords.list 2).words
        ∧ session.keywords[0]? = some .empty ∧ session.options.get? "fold" = some "1")
      ∧ ofDefinition (definition "types") = .error (.unknownKeywords "sql" "types") := by
  intro definition
  have hsame : SameButForCase Language.sql.lexer.name "SQL" := by decide +kernel
  constructor
  . obtain ⟨hiff, _, hcarries⟩ := ofDefinition_carries (definition "pldoc")
    have hdeclared : ∀ entry ∈ (definition "pldoc").keywords.entries, Language.sql.lexer.Declares entry.1 := by decide +kernel
    obtain ⟨session, hsession⟩ := hiff.mpr ⟨.sql, hsame, fun key hkey => by
      obtain ⟨source, hsource⟩ := Option.isSome_iff_exists.mp hkey
      exact hdeclared _ (Dict.get?_eq_some_iff.mp hsource)⟩
    obtain ⟨language, hlanguage, hcarried, hwords⟩ := hcarries session hsession
    obtain rfl : language = .sql := by
      apply Option.some_inj.mp
      rw [← Language.ofName?_eq_some_iff.mpr hlanguage]
      exact Language.ofName?_eq_some_iff.mpr hsame
    refine ⟨session, hsession, ?_, ?_, ?_⟩
    . rw [hwords 2 ⟨"pldoc", "PLDoc"⟩ "author" rfl]
      refine ⟨.words ["see", " author\tsee", ""], by decide +kernel, " author\tsee", by simp [KeywordSource.parts], ?_⟩
      rw [← Blank.mem_words_iff]
      decide +kernel
    . rw [hcarried.list 0 ⟨"keywords", "Keywords"⟩ rfl]
      decide +kernel
    . rw [hcarried.option]
      decide +kernel
  . obtain ⟨_, herror, _⟩ := ofDefinition_carries (definition "types")
    rw [herror]
    right
    refine ⟨.sql, "types", hsame, ⟨⟨by decide +kernel, by decide⟩, ?_⟩, rfl⟩
    intro other hother hlt
    obtain ⟨source, hmem⟩ := hother.exists_mem
    have hkeys : ∀ entry ∈ (definition "types").keywords.entries, ¬ entry.1 < "types" := by decide +kernel
    exact hkeys _ hmem hlt

end OfDefinition

end Session

end Highlight
