import Highlight.Style.Run
import Highlight.Text.Code

/-!
The tokens of Tcl: their styles, and the characters they start with and consist of.
-/

namespace Highlight.Tcl

namespace Style

@[match_pattern] abbrev default : Highlight.Style := 0
/-- A comment behind a command. -/
@[match_pattern] abbrev comment : Highlight.Style := 1
/-- A comment that its line starts with. -/
@[match_pattern] abbrev commentLine : Highlight.Style := 2
@[match_pattern] abbrev number : Highlight.Style := 3
@[match_pattern] abbrev wordInQuote : Highlight.Style := 4
@[match_pattern] abbrev inQuote : Highlight.Style := 5
@[match_pattern] abbrev operator : Highlight.Style := 6
@[match_pattern] abbrev identifier : Highlight.Style := 7
@[match_pattern] abbrev substitution : Highlight.Style := 8
/-- The inside of a substitution with braces. -/
@[match_pattern] abbrev bracedSubstitution : Highlight.Style := 9
/-- A word with a dash in front. -/
@[match_pattern] abbrev modifier : Highlight.Style := 10
@[match_pattern] abbrev expand : Highlight.Style := 11
@[match_pattern] abbrev tclWord : Highlight.Style := 12
@[match_pattern] abbrev tkWord : Highlight.Style := 13
@[match_pattern] abbrev itclWord : Highlight.Style := 14
@[match_pattern] abbrev tkCommand : Highlight.Style := 15
@[match_pattern] abbrev userWord1 : Highlight.Style := 16
@[match_pattern] abbrev userWord2 : Highlight.Style := 17
@[match_pattern] abbrev userWord3 : Highlight.Style := 18
@[match_pattern] abbrev userWord4 : Highlight.Style := 19

end Style

def isWord (c : Code) : Bool :=
  !c.isAscii || c.isAlphanumeric || c.isOneOf "_:"

def isWordStart (c : Code) : Bool :=
  !c.isAscii || c.isAlpha || c.is '_'

/--
The characters of a number, of which any can come in any number and place.
-/
def isNumber (c : Code) : Bool :=
  c.isDigit || c.isOneOf "eE.-+"

def isComment (style : Highlight.Style) : Bool :=
  style == Style.comment || style == Style.commentLine

end Highlight.Tcl
