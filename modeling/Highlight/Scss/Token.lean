import Highlight.Style.Run
import Highlight.Text.Utf8

/-!
The tokens of SCSS: their styles, the groups of styles that belong together, and the characters the
tokens consist of.
-/

namespace Highlight.Scss

namespace Style

@[match_pattern] abbrev default : Highlight.Style := 0
@[match_pattern] abbrev tag : Highlight.Style := 1
@[match_pattern] abbrev cssClass : Highlight.Style := 2
@[match_pattern] abbrev pseudoClass : Highlight.Style := 3
@[match_pattern] abbrev unknownPseudoClass : Highlight.Style := 4
@[match_pattern] abbrev operator : Highlight.Style := 5
@[match_pattern] abbrev identifier : Highlight.Style := 6
@[match_pattern] abbrev unknownIdentifier : Highlight.Style := 7
@[match_pattern] abbrev value : Highlight.Style := 8
@[match_pattern] abbrev comment : Highlight.Style := 9
@[match_pattern] abbrev id : Highlight.Style := 10
@[match_pattern] abbrev important : Highlight.Style := 11
@[match_pattern] abbrev directive : Highlight.Style := 12
@[match_pattern] abbrev doubleString : Highlight.Style := 13
@[match_pattern] abbrev singleString : Highlight.Style := 14
@[match_pattern] abbrev identifier2 : Highlight.Style := 15
@[match_pattern] abbrev attributeName : Highlight.Style := 16
@[match_pattern] abbrev identifier3 : Highlight.Style := 17
@[match_pattern] abbrev pseudoElement : Highlight.Style := 18
@[match_pattern] abbrev extendedIdentifier : Highlight.Style := 19
@[match_pattern] abbrev extendedPseudoClass : Highlight.Style := 20
@[match_pattern] abbrev extendedPseudoElement : Highlight.Style := 21
@[match_pattern] abbrev media : Highlight.Style := 22
@[match_pattern] abbrev variableName : Highlight.Style := 23
@[match_pattern] abbrev commentLine : Highlight.Style := 24

/--
The styles in a selector, behind which a point, a number sign, a bracket, a colon and a dollar sign
start something new.
-/
def selectors : List Highlight.Style :=
  [tag, default, cssClass, id, pseudoClass, extendedPseudoClass, unknownPseudoClass]

def pseudo : List Highlight.Style :=
  [pseudoClass, pseudoElement, extendedPseudoClass, extendedPseudoElement, unknownPseudoClass]

def identifiers : List Highlight.Style :=
  [identifier, identifier2, identifier3, extendedIdentifier, unknownIdentifier]

end Style

def isWord (c : Code) : Bool :=
  !c.isAscii || c.isAlphanumeric || c.isOneOf "-_&"

/--
The operators, in the order in which line states number them.
-/
def operators : List UInt8 :=
  Utf8.encode "\x7b\x7d:,;.#!@*>+=~|[]()$&"

def isOperator (c : Code) : Bool :=
  operators.any (·.toNat == c)

end Highlight.Scss
