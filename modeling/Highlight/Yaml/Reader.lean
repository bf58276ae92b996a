import Highlight.Yaml.Graph
import Highlight.Yaml.Layout

/-!
Reading YAML: the values that a sequence of tokens describes.

Every reader has a bound on its depth and length, which the number of the tokens gives.
-/

namespace Highlight.Yaml

/--
The tokens that are left, with what the tokens before them say: what the handles of tags stand for,
the values with names, and the size of all values so far.
-/
structure Reader where
  rest : List Token
  handles : List (String × List UInt8)
  names : Names
  size : Nat

namespace Reader

/--
Go behind the first token.
-/
def skip (s : Reader) : Reader :=
  { s with rest := s.rest.drop 1 }

def startsWith (s : Reader) (token : Token) : Bool :=
  s.rest.head? == some token

/--
Whether one of `tokens` comes next.
-/
def startsWithAny (s : Reader) (tokens : List Token) : Bool :=
  s.rest.head?.any tokens.contains

def grow (s : Reader) (count : Nat) : Reader :=
  { s with size := s.size + count }

def anchor? (s : Reader) : Option String × Reader :=
  match s.rest with
  | .anchor name :: _ => (some name, s.skip)
  | _ => (none, s)

/--
Read a tag, if there is one.
-/
def tag? (s : Reader) : Option (Option Tag × Reader) :=
  match s.rest with
  | .tag name :: _ => (name.resolve? s.handles).map fun tag => (some tag, s.skip)
  | _ => some (none, s)

/--
Read what can stand in front of a value: a name and a tag, in any order.
-/
def properties? (s : Reader) : Option (Option String × Option Tag × Reader) := do
  let (before?, s) := s.anchor?
  let (tag?, s) ← s.tag?
  let (behind?, s) := if before?.isSome then (none, s) else s.anchor?
  some (before?.or behind?, tag?, s)

/--
Let a value start, which may have a name.
-/
def start (s : Reader) (anchor? : Option String) : Reader × Option Nat :=
  match anchor? with
  | none => (s, none)
  | some name =>
    let (names, place) := s.names.start name
    ({ s with names }, some place)

def finish (s : Reader) (place? : Option Nat) (node : Node) : Reader :=
  match place? with
  | none => s
  | some place => { s with names := s.names.finish place node }

end Reader

mutual

/--
Read a value. `block` says whether it can be written by indentation, and `atKey` whether the dashes of
a list can stand in the column of the key that the list belongs to.
-/
def node? (block atKey : Bool) (bound : Nat) (s : Reader) : Option (Node × Reader) :=
  match bound with
  | 0 => none
  | bound + 1 =>
    match s.rest with
    | .alias name :: _ => (s.names.number? name).map fun number => (.reference number, s.skip.grow 1)
    | _ => do
      let (anchor?, tag?, s) ← s.properties?
      let (s, place?) := s.start anchor?
      let (node, s) ←
        match s.rest with
        | .scalar plain text :: _ =>
          some (.scalar (tag?.filter (· != Tag.unspecific)) plain text, s.skip.grow 1)
        | .openBracket :: _ => do
          let (items, s) ← flowItems? bound [] (s.skip.grow 2)
          some (.list tag? items, s)
        | .openBrace :: _ => do
          let (entries, s) ← flowEntries? bound [] (s.skip.grow 2)
          some (.map tag? entries, s)
        | _ =>
          if atKey && s.startsWith .item then do
            let (items, s) ← items? true bound [] (s.grow 2)
            some (.list tag? items, s)
          else if block && s.startsWith .listStart then do
            let (items, s) ← items? false bound [] (s.skip.grow 2)
            some (.list tag? items, s)
          else if block && s.startsWith .mapStart then do
            let (entries, s) ← entries? bound [] (s.skip.grow 2)
            some (.map tag? entries, s)
          else if anchor?.isSome || tag?.isSome then
            some (.scalar tag? true "", s.grow 1)
          else
            none
      some (node, s.finish place? node)

/--
Read a value, which is missing if one of `stops` comes.
-/
def nodeOrEmpty? (stops : List Token) (block atKey : Bool) (bound : Nat) (s : Reader) :
    Option (Node × Reader) :=
  match bound with
  | 0 => none
  | bound + 1 =>
    if s.startsWithAny stops then some (Node.empty, s.grow 1) else node? block atKey bound s

/--
Read the items of a list with dashes. Such a list in the column of a key ends with its last item, and
any other one has an end of its own.
-/
def items? (atKey : Bool) (bound : Nat) (items : List Node) (s : Reader) : Option (List Node × Reader) :=
  match bound with
  | 0 => none
  | bound + 1 =>
    if s.startsWith .item then do
      let stops := if atKey then [.item, .key, .value, .blockEnd] else [.item, .blockEnd]
      let (item, s) ← nodeOrEmpty? stops true false bound s.skip
      items? atKey bound (item :: items) s
    else if atKey then
      some (items.reverse, s)
    else if s.startsWith .blockEnd then
      some (items.reverse, s.skip)
    else
      none

/--
Read the entries of a mapping by indentation.
-/
def entries? (bound : Nat) (entries : List (Node × Node)) (s : Reader) :
    Option (List (Node × Node) × Reader) :=
  match bound with
  | 0 => none
  | bound + 1 =>
    if s.startsWith .key then do
      let stops := [.key, .value, .blockEnd]
      let (key, s) ← nodeOrEmpty? stops true true bound s.skip
      let (value, s) ←
        if s.startsWith .value then nodeOrEmpty? stops true true bound s.skip else some (Node.empty, s.grow 1)
      entries? bound ((key, value) :: entries) s
    else if s.startsWith .blockEnd then
      some (entries.reverse, s.skip)
    else
      none

/--
Read the value of a key in brackets or braces, which ends at `close`.
-/
def flowValue? (close : Token) (bound : Nat) (s : Reader) : Option (Node × Reader) :=
  match bound with
  | 0 => none
  | bound + 1 =>
    if s.startsWith .value then
      nodeOrEmpty? [.comma, close] false false bound s.skip
    else
      some (Node.empty, s.grow 1)

/--
Read an item of a list in brackets. A key and its value are a mapping with one entry. Where the key is
missing, the token that shows this has no other meaning.
-/
def flowItem? (bound : Nat) (s : Reader) : Option (Node × Reader) :=
  match bound with
  | 0 => none
  | bound + 1 =>
    if s.startsWith .key then do
      let s := s.skip.grow 2
      let (key, s) ←
        if s.startsWithAny [.value, .comma, .closeBracket] then
          some (Node.empty, s.skip.grow 1)
        else
          node? false false bound s
      let (value, s) ← flowValue? .closeBracket bound s
      some (.map none [(key, value)], s)
    else
      node? false false bound s

/--
Read an entry of a mapping in braces.
-/
def flowEntry? (bound : Nat) (s : Reader) : Option ((Node × Node) × Reader) :=
  match bound with
  | 0 => none
  | bound + 1 =>
    if s.startsWith .key then do
      let (key, s) ← nodeOrEmpty? [.value, .comma, .closeBrace] false false bound s.skip
      let (value, s) ← flowValue? .closeBrace bound s
      some ((key, value), s)
    else do
      let (key, s) ← node? false false bound s
      some ((key, Node.empty), s.grow 1)

/--
Read the items of a list in brackets, from behind the opening one on. Each but the first one stands
behind a comma, and a comma may stand behind the last one.
-/
def flowItems? (bound : Nat) (items : List Node) (s : Reader) : Option (List Node × Reader) :=
  match bound with
  | 0 => none
  | bound + 1 =>
    if s.startsWith .closeBracket then
      some (items.reverse, s.skip)
    else if !items.isEmpty && !s.startsWith .comma then
      none
    else
      let s := if items.isEmpty then s else s.skip
      if !items.isEmpty && s.startsWith .closeBracket then
        some (items.reverse, s.skip)
      else do
        let (item, s) ← flowItem? bound s
        flowItems? bound (item :: items) s

/--
Read the entries of a mapping in braces, from behind the opening one on.
-/
def flowEntries? (bound : Nat) (entries : List (Node × Node)) (s : Reader) :
    Option (List (Node × Node) × Reader) :=
  match bound with
  | 0 => none
  | bound + 1 =>
    if s.startsWith .closeBrace then
      some (entries.reverse, s.skip)
    else if !entries.isEmpty && !s.startsWith .comma then
      none
    else
      let s := if entries.isEmpty then s else s.skip
      if !entries.isEmpty && s.startsWith .closeBrace then
        some (entries.reverse, s.skip)
      else do
        let (entry, s) ← flowEntry? bound s
        flowEntries? bound (entry :: entries) s

end

/--
Read the directives in front of a document: at most one version, which is 1.1 or 1.2, and what handles
stand for, each at most once.
-/
def directives? (versioned : Bool) (handles : List (String × List UInt8)) (tokens : List Token) :
    Option (List (String × List UInt8) × List Token) :=
  match tokens with
  | .version major minor :: rest =>
    if !versioned && major == 1 && (minor == 1 || minor == 2) then directives? true handles rest else none
  | .handle handle value :: rest =>
    if (handles.lookup handle).isNone then directives? versioned ((handle, value) :: handles) rest else none
  | tokens => some (handles, tokens)

/--
What handles stand for without a directive.
-/
def commonHandles : List (String × List UInt8) :=
  [("!", Tag.unspecific.bytes), ("!!", Tag.coreBytes)]

def isDirective (token : Token) : Bool :=
  match token with
  | .version _ _ => true
  | .handle _ _ => true
  | _ => false

/--
Whether the tokens of a document start with its marker or with a directive, which a marker has to
follow.
-/
def isMarked (tokens : List Token) : Bool :=
  tokens.head?.any fun token => isDirective token || token == .documentStart

/--
Read the value of a document that starts with its marker or its directives. It may be missing.
-/
def markedNode? (bound : Nat) (tokens : List Token) : Option (Node × Reader) := do
  let (handles, tokens) ← directives? false [] tokens
  if tokens.head? == some .documentStart then
    let s : Reader := ⟨tokens.drop 1, handles ++ commonHandles, .empty, 0⟩
    if s.rest.isEmpty || isMarked s.rest || s.startsWith .documentEnd then
      some (Node.empty, s.grow 1)
    else
      node? true false bound s
  else
    none

/--
What the tokens of a text describe. There is one document and nothing behind it.
-/
def Graph.ofTokens? (tokens : List Token) : Option Graph := do
  let bound := 4 * tokens.length + 4
  let (root, s) ←
    if isMarked tokens then
      markedNode? bound tokens
    else
      node? true false bound ⟨tokens, commonHandles, .empty, 0⟩
  if s.rest.all (· == .documentEnd) then some ⟨root, s.names, s.size⟩ else none

/--
What a text with one document describes.
-/
def Graph.ofText? (text : String) : Option Graph :=
  if text.toList.all isAllowed then
    (tokens? (Source.ofText text.toList)).bind Graph.ofTokens?
  else
    none

end Highlight.Yaml
