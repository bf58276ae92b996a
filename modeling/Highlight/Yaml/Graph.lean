import Highlight.Yaml.Node

/-!
Values that can refer to other ones by their names, and to those that they are a part of.
-/

namespace Highlight.Yaml

/--
The values of a text that have names. Each name has a number, and each number stands for the value
that was the last one to start under it. Values are told apart by the order in which they start.

A name that is given to another value later gets as its number how many names there are, which is
also the number of the next new name. From then on the two names stand for the same value.
-/
structure Names where
  numbers : List (String × Nat)
  starts : List (Nat × Nat)
  values : List (Nat × Node)
  deriving Repr

namespace Names

def empty : Names :=
  ⟨[], [], []⟩

def number? (names : Names) (name : String) : Option Nat :=
  names.numbers.lookup name

/--
Let a value start under a name. The result has the place of the value among those with names.
-/
def start (names : Names) (name : String) : Names × Nat :=
  let number := names.numbers.length
  let place := names.starts.length
  let others := names.numbers.filter (·.1 != name)
  ({ names with numbers := (name, number) :: others, starts := (number, place) :: names.starts }, place)

/--
Set the value at a place, once it is read.
-/
def finish (names : Names) (place : Nat) (node : Node) : Names :=
  { names with values := (place, node) :: names.values }

/--
The value that a number stands for.
-/
def value? (names : Names) (number : Nat) : Option Node :=
  (names.starts.lookup number).bind fun place => names.values.lookup place

end Names

/--
What a text describes: a value, the values with names that it refers to, and the size of both, which
is one for each scalar or reference and two for each list or mapping.
-/
structure Graph where
  root : Node
  names : Names
  size : Nat
  deriving Repr

/--
The value that a reference stands for. A value with a name is no reference itself.
-/
def Graph.resolve (graph : Graph) (node : Node) : Node :=
  match node with
  | .reference number => (graph.names.value? number).getD node
  | node => node

/--
How many references are followed where a value is read with the parts it has down to the depth
`depth`.
-/
def Graph.followed (graph : Graph) (depth : Nat) (node : Node) : Nat :=
  let here := match node with
    | .reference _ => 1
    | _ => 0
  match depth with
  | 0 => here
  | depth + 1 =>
    match graph.resolve node with
    | .list _ items => items.foldl (fun count item => count + graph.followed depth item) here
    | .map _ entries =>
      entries.foldl (fun count entry =>
        count + graph.followed depth entry.1 + graph.followed depth entry.2) here
    | _ => here

end Highlight.Yaml
