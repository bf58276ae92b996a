import Highlight.Document.Basic

/-!
What the end of a line of Tcl leaves to the next one: the line state, and a level word with a brace
depth of its own.
-/

namespace Highlight.Tcl

/--
What a line end leaves open.
-/
inductive Opened where
  | nothing
  /-- A comment that ends with a backslash. -/
  | comment
  /-- A word in quotes. -/
  | quote
  deriving DecidableEq, Repr

namespace Opened

def number (opened : Opened) : Nat :=
  match opened with
  | .nothing => 0
  | .comment => 1
  | .quote => 2

def ofNumber (number : Nat) : Opened :=
  match number with
  | 1 => .comment
  | 2 => .quote
  | _ => .nothing

theorem ofNumber_number (opened : Opened) : ofNumber opened.number = opened := by
  cases opened <;> rfl

end Opened

/--
What is open, whether the next word can be a command, and whether the line ends inside of a
substitution with braces.
-/
structure Memory where
  opened : Opened
  commandExpected : Bool
  inBraces : Bool
  deriving DecidableEq, Repr

namespace Memory

/--
What is open is in the low four bits, the flags are the two bits above them.
-/
def pack (memory : Memory) : LineState :=
  Int32.ofNat memory.opened.number
    ||| (if memory.commandExpected then 16 else 0)
    ||| (if memory.inBraces then 32 else 0)

def unpack (state : LineState) : Memory :=
  { opened := .ofNumber (state &&& 0xF).toInt.toNat
    commandExpected := state &&& 16 != 0
    inBraces := state &&& 32 != 0 }

end Memory

/--
The level of a line with `own` open braces at its start and `next` at its end. The line is a header
if the number rises, and otherwise white if it shows nothing. `comment` says that one of the braces
is a block of comment lines; it is bit 16, and `next` is in the bits above it.
-/
def packLevel (own next : Int32) (comment visible : Bool) : Level :=
  let flag := if own < next then Level.headerFlag else if visible then 0 else Level.whiteFlag
  flag + own + Level.base + (next <<< 17) + (if comment then 0x10000 else 0)

/--
The number of open braces that a level keeps for the next line.
-/
def depthAfter (level : Level) : Int32 :=
  level >>> 17

/--
Whether a level keeps that a block of comment lines is open.
-/
def inCommentBlock (level : Level) : Bool :=
  (level >>> 16) &&& 1 != 0

end Highlight.Tcl
