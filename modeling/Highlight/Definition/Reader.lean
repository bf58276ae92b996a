import Highlight.Definition.Set
import Highlight.Yaml.Reader
import Highlight.Yaml.Scalar

/-!
Reading language definitions from YAML.

A field that is a text takes any scalar as it is written. Where a text is one of several choices, a
plain scalar that means a number, a truth value or nothing is no text. A reference is as good as the
value that it stands for, within a limit.
-/

namespace Highlight.Definition

open Yaml

/--
The text of a scalar, as it is written.
-/
def text? (graph : Graph) (node : Node) : Option String :=
  match graph.resolve node with
  | .scalar _ _ text => some text
  | _ => none

/--
A text, or nothing where a plain scalar means nothing.
-/
def optionalText? (graph : Graph) (node : Node) : Option (Option String) :=
  match graph.resolve node with
  | .scalar none true text => some (if Scalar.isNull text then none else some text)
  | .scalar (some tag) true text =>
    if tag != .core "null" then
      some (some text)
    else if Scalar.isNull text && !text.isEmpty then
      some none
    else
      none
  | .scalar _ false text => some (some text)
  | _ => none

/--
Whether a value is empty, which can stand for an empty list or mapping.
-/
def isEmptyNode (node : Node) : Bool :=
  match node with
  | .scalar _ plain text => plain && text.isEmpty
  | _ => false

def texts? (graph : Graph) (node : Node) : Option (List String) :=
  match graph.resolve node with
  | .list _ items => items.mapM (text? graph)
  | node => if isEmptyNode node then some [] else none

/--
A mapping from texts. The last value of a key stays.
-/
def dict? {α : Type} (value? : Graph → Node → Option α) (graph : Graph) (node : Node) :
    Option (Dict α) :=
  match graph.resolve node with
  | .map _ entries => do
    let read ← entries.mapM fun entry => do
      let key ← text? graph entry.1
      let value ← value? graph entry.2
      pure (key, value)
    some (Dict.ofList read)
  | node => if isEmptyNode node then some .empty else none

def meaning? (graph : Graph) (node : Node) : Option Scalar :=
  match graph.resolve node with
  | .scalar tag? plain text => Scalar.ofScalar? tag? plain text
  | _ => none

def word? (graph : Graph) (node : Node) : Option String :=
  match meaning? graph node with
  | some (.text word) => some word
  | _ => none

/--
A text or a list of texts. With a local tag, a list is none.
-/
def keywordSource? (graph : Graph) (node : Node) : Option KeywordSource :=
  match graph.resolve node with
  | .list tag? items =>
    if tag?.any Tag.isLocal then none else (items.mapM (word? graph)).map .words
  | node => (word? graph node).map .text

/--
The value of an option: a truth value, an integer of 64 bits or a text.
-/
def optionValue? (graph : Graph) (node : Node) : Option OptionValue :=
  match meaning? graph node with
  | some (.bool value) => some (.switch value)
  | some (.int value) =>
    if Int64.minValue.toInt ≤ value && value ≤ Int64.maxValue.toInt then some (.int value) else none
  | some (.text value) => some (.text value)
  | _ => none

/--
The fields of a definition, and the depth to which their values are read.
-/
def fieldDepths : List (String × Nat) :=
  [("name", 0), ("lexer", 0), ("file_extensions", 1), ("keywords", 2), ("properties", 2)]

/--
How many references are followed where a definition is read from the entries of a mapping.
-/
def followed (graph : Graph) (entries : List (Node × Node)) : Nat :=
  entries.foldl (fun count entry =>
    let depth? := (text? graph entry.1).bind fun key => fieldDepths.lookup key
    count + graph.followed 0 entry.1 + (depth?.map fun depth => graph.followed depth entry.2).getD 0) 0

/--
The values that are given to a field: none, or a single one.
-/
def field? (fields : List (String × Node)) (key : String) : Option (Option Node) :=
  match fields.filter (·.1 == key) with
  | [] => some none
  | [field] => some (some field.2)
  | _ => none

/--
The value of a field that can be left out.
-/
def fieldOr {α : Type} (fields : List (String × Node)) (key : String) (read? : Node → Option α)
    (fallback : α) : Option α :=
  match field? fields key with
  | some (some node) => read? node
  | some none => some fallback
  | none => none

/--
The definition that a graph describes, which is a mapping. Fields of other names have no meaning. As a
short text can grow without end by its references, at most a hundred of them are followed for each part
of the text.
-/
def ofGraph? (graph : Graph) : Option Definition :=
  match graph.root with
  | .map _ entries => do
    let fields ← entries.mapM fun entry => (text? graph entry.1).map fun key => (key, entry.2)
    let name ← fieldOr fields "name" (fun node => (text? graph node).map some) none
    let lexer? ← fieldOr fields "lexer" (optionalText? graph) none
    let extensions ← fieldOr fields "file_extensions" (texts? graph) []
    let keywords ← fieldOr fields "keywords" (dict? keywordSource? graph) .empty
    let options ← fieldOr fields "properties" (dict? optionValue? graph) .empty
    let name ← name
    if followed graph entries ≤ 100 * graph.size then
      some { name, lexer?, extensions, keywords, options }
    else
      none
  | _ => none

def parse (text : String) : Except DefinitionError Definition :=
  match (Graph.ofText? text).bind ofGraph? with
  | some definition => .ok definition
  | none => .error .malformed

end Highlight.Definition

namespace Highlight

/--
Add the definition that a text describes.
-/
def LanguageSet.load (set : LanguageSet) (text : String) :
    Except DefinitionError (LanguageSet × Definition) :=
  set.loadWith Definition.parse text

end Highlight
