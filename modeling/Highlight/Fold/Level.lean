/-!
Fold levels: the depth of a line and what else is kept in the same word.

The low twelve bits hold the depth, the next bits are flags, and the upper half holds the depth that
the next line starts with, from which a later pass goes on.
-/

namespace Highlight

/--
The fold level of a line.
-/
abbrev Level := Int32

namespace Level

/--
The level of a line outside of all blocks.
-/
def base : Level := 0x400

/--
The flag of a line that shows nothing.
-/
def whiteFlag : Level := 0x1000

/--
The flag of a line that opens a block.
-/
def headerFlag : Level := 0x2000

/--
The depth of a line.
-/
def number (level : Level) : Level :=
  level &&& 0x0FFF

def isHeader (level : Level) : Bool :=
  level &&& headerFlag != 0

def isWhite (level : Level) : Bool :=
  level &&& whiteFlag != 0

/--
The depth that the next line starts with, as `compose` keeps it.
-/
def next (level : Level) : Level :=
  level >>> 16

/--
The level of a line of depth `own` before a line that starts with depth `next`. The line is white if
it has no visible character and `compact` is set, and it is a header if the depth rises.
-/
def compose (own next : Level) (visible : Nat) (compact : Bool) : Level :=
  let level := own ||| (next <<< 16)
  let level := if visible == 0 && compact then level ||| whiteFlag else level
  if own < next then level ||| headerFlag else level

end Level

end Highlight
