import Highlight.Document.Basic
import Highlight.WordList

/-!
What a language has to offer in order to be coloured and folded.
-/

namespace Highlight

/--
A walk over the whole lines of a span that colours or folds them.
-/
abbrev Pass := Keywords → Span → Document → Document

/--
A keyword list that a language looks words up in: the key it has in definitions, and what it holds.
-/
structure KeywordSlot where
  key : String
  description : String
  deriving DecidableEq, Repr

/--
A language: its number and name, its keyword lists in order, and its passes. A language without
`fold?` has no fold pass of its own.
-/
structure Lexer where
  id : Int
  name : String
  slots : List KeywordSlot
  colour : Pass
  fold? : Option Pass

namespace Lexer

def canFold (lexer : Lexer) : Bool :=
  lexer.fold?.isSome

def fold (lexer : Lexer) : Pass :=
  lexer.fold?.getD fun _ _ doc => doc

/--
The index of the keyword list with the key `key`.
-/
def slotIndex? (lexer : Lexer) (key : String) : Option Nat :=
  lexer.slots.findIdx? (·.key == key)

end Lexer

end Highlight
