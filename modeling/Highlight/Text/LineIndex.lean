/-!
Where the lines of a text start.

A line ends with a line feed, with a carriage return and a line feed, or with a carriage return
alone. The terminator belongs to the line it ends, so a text that ends with a terminator has an
empty last line.
-/

namespace Highlight

/--
The first position of each line of a text, and the length of the text.
-/
structure LineIndex where
  starts : Array Nat
  length : Nat
  deriving DecidableEq, Repr

namespace LineIndex

/--
The index of the empty text, which has one line.
-/
def empty : LineIndex :=
  ⟨#[0], 0⟩

/--
Whether the byte at `pos` is the last byte of a line terminator.
-/
def endsLine (text : Array UInt8) (pos : Nat) : Bool :=
  match text[pos]? with
  | some 0x0A => true
  | some 0x0D => text[pos + 1]? != some 0x0A
  | _ => false

def ofText (text : Array UInt8) : LineIndex :=
  ⟨#[0] ++ ((Array.range text.size).filter (endsLine text)).map (· + 1), text.size⟩

def count (index : LineIndex) : Nat :=
  index.starts.size

theorem count_ofText_pos (text : Array UInt8) : 0 < (ofText text).count := by
  rw [count, ofText, Array.size_append]
  exact Nat.add_pos_left Nat.one_pos _

/--
The first position of `line`; the length of the text for a line past the last one.
-/
def lineStart (index : LineIndex) (line : Nat) : Nat :=
  index.starts[line]?.getD index.length

/--
The line that `pos` stands on; the last line for a position past the end.
-/
def lineOf (index : LineIndex) (pos : Nat) : Nat :=
  index.starts.countP (· ≤ pos) - 1

/--
The position after the last byte of `line` that is no part of its terminator.
-/
def lineEnd (index : LineIndex) (text : Array UInt8) (line : Nat) : Nat :=
  let start := index.lineStart line
  let stop := index.lineStart (line + 1)
  let stop := if start < stop && text[stop - 1]? == some 0x0A then stop - 1 else stop
  if start < stop && text[stop - 1]? == some 0x0D then stop - 1 else stop

end LineIndex

end Highlight
