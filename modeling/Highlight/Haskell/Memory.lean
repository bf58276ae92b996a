import Highlight.Document.Basic

/-!
What the words before a place say about the next one, which is the line state of Haskell.
-/

namespace Highlight.Haskell

/--
The clause the last word belongs to.
-/
inductive Mode where
  | plain
  /-- Behind `import`, in front of the module. -/
  | importing
  /-- Behind the module of an import. -/
  | imported
  /-- Behind `as` in an import. -/
  | importAlias
  | moduleHeader
  | foreignDeclaration
  | typeDeclaration
  deriving DecidableEq, Repr

namespace Mode

def all : List Mode :=
  [.plain, .importing, .imported, .importAlias, .moduleHeader, .foreignDeclaration, .typeDeclaration]

def number (mode : Mode) : Nat :=
  match mode with
  | .plain => 0
  | .importing => 1
  | .imported => 2
  | .importAlias => 3
  | .moduleHeader => 4
  | .foreignDeclaration => 5
  | .typeDeclaration => 6

/--
The mode with the number `number`; plain if there is none.
-/
def ofNumber (number : Nat) : Mode :=
  (all.find? (·.number == number)).getD .plain

theorem ofNumber_number (mode : Mode) : ofNumber mode.number = mode := by
  cases mode <;> decide

def isImport (mode : Mode) : Bool :=
  match mode with
  | .importing | .imported | .importAlias => true
  | _ => false

end Mode

/--
The mode, and a number whose sense depends on the open token: the depth of a block comment, the base
of a number, the style of a name, or whether a line comment has nothing but dashes so far.
-/
structure Memory where
  mode : Mode
  extra : Nat
  deriving DecidableEq, Repr

namespace Memory

/--
The mode is in the low four bits, the other part above them.
-/
def pack (memory : Memory) : LineState :=
  Int32.ofNat (LineState.saturate memory.extra 27 * 16 + memory.mode.number)

def unpack (state : LineState) : Memory :=
  { mode := .ofNumber (state.toInt % 16).toNat
    extra := state.toInt.toNat / 16 }

/--
What is known at the start of `line`.
-/
def before (doc : Document) (line : Nat) : Memory :=
  ((doc.lineStateAbove? line).map unpack).getD ⟨.plain, 0⟩

end Memory

end Highlight.Haskell
