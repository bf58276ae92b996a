import Highlight.Style.Run
import Highlight.Text.Code

/-!
The tokens of SQL: their styles, and the bytes they start with and consist of.
-/

namespace Highlight.Sql

namespace Style

@[match_pattern] abbrev default : Highlight.Style := 0
@[match_pattern] abbrev comment : Highlight.Style := 1
@[match_pattern] abbrev commentLine : Highlight.Style := 2
@[match_pattern] abbrev commentDoc : Highlight.Style := 3
@[match_pattern] abbrev number : Highlight.Style := 4
@[match_pattern] abbrev word : Highlight.Style := 5
@[match_pattern] abbrev string : Highlight.Style := 6
@[match_pattern] abbrev character : Highlight.Style := 7
/-- A command of SQL*Plus. -/
@[match_pattern] abbrev command : Highlight.Style := 8
@[match_pattern] abbrev prompt : Highlight.Style := 9
@[match_pattern] abbrev operator : Highlight.Style := 10
@[match_pattern] abbrev identifier : Highlight.Style := 11
@[match_pattern] abbrev remark : Highlight.Style := 13
@[match_pattern] abbrev commentLineDoc : Highlight.Style := 15
@[match_pattern] abbrev databaseObject : Highlight.Style := 16
@[match_pattern] abbrev docKeyword : Highlight.Style := 17
@[match_pattern] abbrev docKeywordError : Highlight.Style := 18
@[match_pattern] abbrev userWord1 : Highlight.Style := 19
@[match_pattern] abbrev userWord2 : Highlight.Style := 20
@[match_pattern] abbrev userWord3 : Highlight.Style := 21
@[match_pattern] abbrev userWord4 : Highlight.Style := 22

end Style

def isWordStart (c : Code) : Bool :=
  c.isAlphanumeric || c.is '_'

def isWord (c : Code) : Bool :=
  c.isAlphanumeric || c.isOneOf "._"

/--
The styles between the two ends of a comment that can span lines.
-/
def isStreamComment (style : Highlight.Style) : Bool :=
  match style with
  | Style.comment | Style.commentDoc | Style.docKeyword | Style.docKeywordError => true
  | _ => false

end Highlight.Sql
