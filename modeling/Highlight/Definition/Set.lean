import Highlight.Definition.Basic

/-!
Sets of language definitions with distinct names.
-/

namespace Highlight

/--
Why a definition is not taken into a set.
-/
inductive DefinitionError where
  /-- The text is no definition. -/
  | malformed
  | missingField (field : String)
  /-- The set has a language of this name. -/
  | duplicate (name : String)
  deriving DecidableEq, Repr

def DefinitionError.message (error : DefinitionError) : String :=
  match error with
  | .malformed => "malformed definition"
  | .missingField field => "missing required field: " ++ field
  | .duplicate name => "duplicate language '" ++ name ++ "'"

/--
Definitions in the order in which they came.
-/
structure LanguageSet where
  definitions : List Definition
  deriving DecidableEq, Repr

namespace LanguageSet

def empty : LanguageSet :=
  ⟨[]⟩

def size (set : LanguageSet) : Nat :=
  set.definitions.length

def isEmpty (set : LanguageSet) : Bool :=
  set.definitions.isEmpty

/--
The definition with the name `name` in any case.
-/
def get? (set : LanguageSet) (name : String) : Option Definition :=
  set.definitions.find? fun definition => sameIgnoringCase definition.name name

/--
The first definition that claims `extension`.
-/
def forExtension? (set : LanguageSet) (extension : String) : Option Definition :=
  set.definitions.find? (·.claims extension)

def forPath? (set : LanguageSet) (path : String) : Option Definition :=
  (Path.extension? path).bind set.forExtension?

/--
Add a definition whose name is new and not blank.
-/
def insert (set : LanguageSet) (definition : Definition) : Except DefinitionError LanguageSet :=
  if (Blank.trim definition.name.toList).isEmpty then
    .error (.missingField "name")
  else if (set.get? definition.name).isSome then
    .error (.duplicate definition.name)
  else
    .ok ⟨set.definitions ++ [definition]⟩

/--
Add the definition that `parse` reads from a text.
-/
def loadWith (parse : String → Except DefinitionError Definition) (set : LanguageSet) (text : String) :
    Except DefinitionError (LanguageSet × Definition) := do
  let definition ← parse text
  let set ← set.insert definition
  pure (set, definition)

end LanguageSet

end Highlight
