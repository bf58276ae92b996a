import Highlight.Style.Run
import Highlight.Text.Code

/-!
The tokens of Haskell: their styles, and the characters they start with and consist of.
-/

namespace Highlight.Haskell

namespace Style

@[match_pattern] abbrev default : Highlight.Style := 0
@[match_pattern] abbrev identifier : Highlight.Style := 1
@[match_pattern] abbrev keyword : Highlight.Style := 2
@[match_pattern] abbrev number : Highlight.Style := 3
@[match_pattern] abbrev string : Highlight.Style := 4
@[match_pattern] abbrev character : Highlight.Style := 5
@[match_pattern] abbrev moduleName : Highlight.Style := 7
/-- A name with a capital, and an operator that stands for a constructor. -/
@[match_pattern] abbrev capital : Highlight.Style := 8
@[match_pattern] abbrev operator : Highlight.Style := 11
@[match_pattern] abbrev commentLine : Highlight.Style := 13
@[match_pattern] abbrev commentBlock : Highlight.Style := 14
@[match_pattern] abbrev pragma : Highlight.Style := 17
@[match_pattern] abbrev preprocessor : Highlight.Style := 18

end Style

def isWordStart (c : Code) : Bool :=
  c.isAlpha || c.is '_'

/--
The characters of a name. With magic hashes, a number sign is one of them.
-/
def isWord (magicHash : Bool) (c : Code) : Bool :=
  c.isAlphanumeric || c.is '_' || c == Code.apostrophe || (magicHash && c.is '#')

def isOperatorSign (c : Code) : Bool :=
  c.isOneOf "!#$%&*+-./:<=>?@\\^|~"

def isPunctuation (c : Code) : Bool :=
  c.isOneOf ",;()[]\x7b\x7d"

end Highlight.Haskell
