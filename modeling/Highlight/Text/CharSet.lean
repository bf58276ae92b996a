import Highlight.Text.Code

/-!
Sets of characters given by a class, some more ASCII characters, and one rule for every character
outside ASCII.
-/

namespace Highlight

/--
The classes a `CharSet` can start from.
-/
inductive CharBase where
  | none
  | alpha
  | digits
  | alphanumeric
  deriving DecidableEq, Repr

def CharBase.contains (base : CharBase) (c : Code) : Bool :=
  match base with
  | .none => false
  | .alpha => c.isAlpha
  | .digits => c.isDigit
  | .alphanumeric => c.isAlphanumeric

/--
The characters of `base`, the ASCII characters of `extra`, and all characters outside ASCII if
`beyondAscii` is set.
-/
structure CharSet where
  base : CharBase
  extra : String
  beyondAscii : Bool
  deriving DecidableEq, Repr

def CharSet.contains (set : CharSet) (c : Code) : Bool :=
  if c.isAscii then
    set.base.contains c || c.isOneOf set.extra
  else
    set.beyondAscii

end Highlight
