import Highlight.Fold.Level

/-!
The blocks that the fold levels of a text describe.
-/

namespace Highlight

/--
A block that can be folded: its header line and its last line.
-/
structure Region where
  header : Nat
  last : Nat
  deriving DecidableEq, Repr

namespace Region

/--
Whether a line of level `level` can stand in the block of a header of depth `depth`.
-/
def holds (depth level : Level) : Bool :=
  level.isWhite || depth < level.number

/--
The number of lines in the block of a header of depth `depth` that stands right above `below`. White
lines at the end of a block are no part of it.
-/
def size (depth : Level) (below : List Level) : Nat :=
  ((below.takeWhile (holds depth)).reverse.dropWhile Level.isWhite).length

def ofLevelsFrom (line : Nat) (levels : List Level) : List Region :=
  match levels with
  | [] => []
  | level :: below =>
    let regions := ofLevelsFrom (line + 1) below
    let size := size level.number below
    if level.isHeader && 0 < size then
      ⟨line, line + size⟩ :: regions
    else
      regions

/--
The blocks of a text, in the order of their headers.
-/
def ofLevels (levels : Array Level) : List Region :=
  ofLevelsFrom 0 levels.toList

end Region

end Highlight
