import Highlight.Style.Run
import Highlight.Text.Utf8

/-!
The tokens of Gibiane: their styles, the characters that separate them, and the abbreviation of
keywords.
-/

namespace Highlight.Gibiane

namespace Style

@[match_pattern] abbrev default : Highlight.Style := 0
@[match_pattern] abbrev comment : Highlight.Style := 1
@[match_pattern] abbrev number : Highlight.Style := 2
/-- The style of the words in the first list; those of the other lists follow it. -/
@[match_pattern] abbrev word : Highlight.Style := 3
@[match_pattern] abbrev string : Highlight.Style := 11
@[match_pattern] abbrev table : Highlight.Style := 12

/--
The styles of words, in the order of the lists.
-/
def words : List Highlight.Style :=
  [word, 4, 5, 6, 7, 8, 9, 10]

end Style

def isBlank (c : Code) : Bool :=
  c.isSpaceOrTab || c == 0x0B

/--
The characters that end a word.
-/
def isSeparator (c : Code) : Bool :=
  isBlank c || c.isLineEnd || c.isOneOf ";()="

def isQuote (c : Code) : Bool :=
  c == Code.apostrophe

/--
Whether `word` stands for `keyword`: a word of four letters for any keyword it starts, a shorter one
for itself only.
-/
def abbreviates (word keyword : List UInt8) : Bool :=
  word.isPrefixOf keyword && (4 ≤ word.length || word.length == keyword.length)

end Highlight.Gibiane
