import Highlight.Style.Run
import Highlight.Text.Code

/-!
The tokens of R: their styles, and the characters they start with and consist of.
-/

namespace Highlight.R

namespace Style

@[match_pattern] abbrev default : Highlight.Style := 0
@[match_pattern] abbrev comment : Highlight.Style := 1
@[match_pattern] abbrev keyword : Highlight.Style := 2
@[match_pattern] abbrev baseFunction : Highlight.Style := 3
@[match_pattern] abbrev packageFunction : Highlight.Style := 4
@[match_pattern] abbrev number : Highlight.Style := 5
@[match_pattern] abbrev string : Highlight.Style := 6
@[match_pattern] abbrev singleQuoted : Highlight.Style := 7
@[match_pattern] abbrev operator : Highlight.Style := 8
@[match_pattern] abbrev identifier : Highlight.Style := 9
/-- An operator between two percent signs. -/
@[match_pattern] abbrev special : Highlight.Style := 10
/-- A special operator that its line ends before. -/
@[match_pattern] abbrev specialUnclosed : Highlight.Style := 11

end Style

def isWord (c : Code) : Bool :=
  c.isAlphanumeric || c.isOneOf "._"

def isWordStart (c : Code) : Bool :=
  isWord c && !c.is '.'

/--
The operators. The point is none, as it is a part of numbers and identifiers.
-/
def isOperator (c : Code) : Bool :=
  c.isOneOf "-+!~?:*/^<>=&|$()\x7b\x7d[]"

end Highlight.R
