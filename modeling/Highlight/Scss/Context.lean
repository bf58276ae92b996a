import Highlight.Document.Basic
import Highlight.Scss.Token

/-!
What the next word of SCSS depends on, which is its line state.
-/

namespace Highlight.Scss

/--
An operator, and whether it follows a colon directly.
-/
structure Operator where
  sign : UInt8
  afterColon : Bool
  deriving DecidableEq, Repr

/--
The styles in front of the last operators, the open comment and the open string, and the last
operator, where there are such.
-/
structure Context where
  lastStyle? : Option Style
  beforeComment? : Option Style
  beforeString? : Option Style
  operator? : Option Operator
  deriving DecidableEq, Repr

namespace Context

def empty : Context :=
  ⟨none, none, none, none⟩

/--
Fields of five bits hold a number from 1 on, or 0 for nothing.
-/
def packStyle (style? : Option Style) : Nat :=
  match style? with
  | some style => LineState.saturate (style.toNat + 1) 5
  | none => 0

def unpackStyle? (field : Nat) : Option Style :=
  match field with
  | 0 => none
  | style + 1 => some (UInt8.ofNat style)

/--
The place of the last operator in the list of all operators, counted from 1 on, and above it its
flag.
-/
def packOperator (operator? : Option Operator) : Nat :=
  match operator? with
  | some operator =>
    ((operators.findIdx? (· == operator.sign)).map (· + 1)).getD 0 + (if operator.afterColon then 32 else 0)
  | none => 0

def unpackOperator? (field : Nat) : Option Operator :=
  match field % 32 with
  | 0 => none
  | index + 1 => operators[index]?.map fun sign => ⟨sign, field / 32 % 2 == 1⟩

def pack (context : Context) : LineState :=
  Int32.ofNat
    (packStyle context.lastStyle? + packStyle context.beforeComment? * 0x20
      + packStyle context.beforeString? * 0x400 + packOperator context.operator? * 0x8000)

/--
A negative state says nothing.
-/
def unpack (state : LineState) : Context :=
  let word := state.toInt.toNat
  { lastStyle? := unpackStyle? (word % 32)
    beforeComment? := unpackStyle? (word / 0x20 % 32)
    beforeString? := unpackStyle? (word / 0x400 % 32)
    operator? := unpackOperator? (word / 0x8000) }

/--
What is known at the start of `line`.
-/
def before (doc : Document) (line : Nat) : Context :=
  ((doc.lineStateAbove? line).map unpack).getD empty

/--
The last operator as a character; a blank if there is none.
-/
def sign (context : Context) : Code :=
  (context.operator?.map (·.sign.toNat)).getD Code.blank

def afterColon (context : Context) : Bool :=
  context.operator?.any (·.afterColon)

/--
Whether the style in front of the last operators is one of `styles`.
-/
def lastIs (context : Context) (styles : List Style) : Bool :=
  context.lastStyle?.any styles.contains

end Context

end Highlight.Scss
