import Highlight.Style.Run
import Highlight.Text.Code

/-!
The tokens of Rust: their styles, and the characters they start with and consist of.
-/

namespace Highlight.Rust

namespace Style

@[match_pattern] abbrev default : Highlight.Style := 0
@[match_pattern] abbrev comment : Highlight.Style := 1
@[match_pattern] abbrev commentLine : Highlight.Style := 2
@[match_pattern] abbrev commentDoc : Highlight.Style := 3
@[match_pattern] abbrev commentNested : Highlight.Style := 4
@[match_pattern] abbrev number : Highlight.Style := 5
@[match_pattern] abbrev primaryWord : Highlight.Style := 6
@[match_pattern] abbrev secondaryWord : Highlight.Style := 7
@[match_pattern] abbrev typeWord : Highlight.Style := 9
@[match_pattern] abbrev string : Highlight.Style := 10
/-- A character literal that its line ends before. -/
@[match_pattern] abbrev characterUnclosed : Highlight.Style := 11
@[match_pattern] abbrev character : Highlight.Style := 12
@[match_pattern] abbrev operator : Highlight.Style := 13
@[match_pattern] abbrev identifier : Highlight.Style := 14
@[match_pattern] abbrev commentLineDoc : Highlight.Style := 15
@[match_pattern] abbrev docKeyword : Highlight.Style := 16
@[match_pattern] abbrev docKeywordError : Highlight.Style := 17
/-- A string between backticks. -/
@[match_pattern] abbrev backtickString : Highlight.Style := 18
/-- A string without escapes, between quotes with a letter in front. -/
@[match_pattern] abbrev rawString : Highlight.Style := 19

end Style

def isWordStart (c : Code) : Bool :=
  !c.isAscii || c.isAlpha || c.is '_'

def isWord (c : Code) : Bool :=
  !c.isAscii || c.isAlphanumeric || c.is '_'

/--
The characters of a keyword in a documentation comment.
-/
def isDocWord (c : Code) : Bool :=
  c.isLower || c.isOneOf "$@\\&#<>\x7b\x7d[]"

/--
The letters that can follow a closing quote.
-/
def isStringSuffix (c : Code) : Bool :=
  c.isOneOf "cwd"

/--
The styles between the two ends of a comment that can span lines and does not nest.
-/
def isStreamComment (style : Highlight.Style) : Bool :=
  match style with
  | Style.comment | Style.commentDoc | Style.docKeyword | Style.docKeywordError => true
  | _ => false

end Highlight.Rust
