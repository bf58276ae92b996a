import Highlight.Cursor
import Highlight.Iteration
import Highlight.Lexer
import Highlight.Scss.Context

/-!
Colouring SCSS.

What a word is depends on the last operator and on the style in front of it. Each line starts a token
of its own, and its state is what is known at its end.
-/

namespace Highlight.Scss

/--
The style behind the last operator, where the operator decides it.
-/
def styleAfter? (context : Context) : Option Style :=
  let sign := context.sign
  let inSelector := context.lastIs Style.selectors
  let inPseudoElement := context.lastIs [Style.pseudoElement, Style.extendedPseudoElement]
  if sign.is '@' && context.lastIs [Style.default] then
    some Style.directive
  else if sign.isOneOf ">+" && inSelector && context.lastStyle? != some Style.default then
    some Style.default
  else if sign.is '[' && inSelector then
    some Style.attributeName
  else if sign.is ']' && context.lastIs [Style.attributeName] then
    some Style.tag
  else if sign.is '\x7b' && context.lastIs [Style.media] then
    some Style.default
  else if sign.is '\x7b' && context.lastIs [Style.tag, Style.directive, Style.identifier] then
    some Style.identifier
  else if sign.is '\x7d' && context.lastIs
      [Style.default, Style.value, Style.important, Style.identifier, Style.identifier2, Style.identifier3] then
    some Style.default
  else if sign.is '(' && context.lastIs [Style.pseudoClass] then
    some Style.tag
  else if sign.is '(' && context.lastIs [Style.extendedPseudoClass] then
    some Style.extendedPseudoClass
  else if sign.is ')' && (inSelector || inPseudoElement) then
    some Style.tag
  else if sign.is ':' && (inSelector || inPseudoElement) then
    some Style.pseudoClass
  else if sign.is ':' && context.lastIs Style.identifiers then
    some Style.value
  else if sign.is '.' && inSelector then
    some Style.cssClass
  else if sign.is '#' && inSelector then
    some Style.id
  else if sign.isOneOf ",|~" && context.lastIs [Style.tag] then
    some Style.default
  else if sign.is ';' && context.lastIs [Style.directive, Style.variableName] then
    some Style.default
  else if sign.is ';' && context.lastIs [Style.value, Style.important] then
    some Style.identifier
  else if sign.is '!' && context.lastIs [Style.value] then
    some Style.important
  else if sign.is '$' && (inSelector || context.lastIs [Style.variableName, Style.identifier]) then
    some Style.variableName
  else if sign.is '&' then
    some Style.identifier
  else
    none

def identifierStyle (keywords : Keywords) (word : String) : Style :=
  if (keywords.list 0).contains word then
    Style.identifier
  else if (keywords.list 2).contains word then
    Style.identifier2
  else if (keywords.list 3).contains word then
    Style.identifier3
  else if (keywords.list 5).contains word then
    Style.extendedIdentifier
  else
    Style.unknownIdentifier

/--
The style of a pseudo-class, behind one colon, or of a pseudo-element, behind two.
-/
def pseudoStyle (keywords : Keywords) (context : Context) (word : String) : Style :=
  let sign := context.sign
  let extended := sign.is ':' || (sign.is '(' && context.lastStyle? == some Style.extendedPseudoClass)
  if sign.is ':' && !context.afterColon && (keywords.list 1).contains word then
    Style.pseudoClass
  else if context.afterColon && (keywords.list 4).contains word then
    Style.pseudoElement
  else if extended && !context.afterColon && (keywords.list 6).contains word then
    Style.extendedPseudoClass
  else if context.afterColon && (keywords.list 7).contains word then
    Style.extendedPseudoElement
  else
    Style.unknownPseudoClass

/--
The style of a word that so far has the style `style`.
-/
def wordStyle (keywords : Keywords) (context : Context) (style : Style) (word : String) : Style :=
  if Style.identifiers.contains style then
    identifierStyle keywords word
  else if Style.pseudo.contains style then
    pseudoStyle keywords context word
  else if style == Style.important then
    if word == "important" then style else Style.value
  else if style == Style.directive && context.sign.is '@' && word == "media" then
    Style.media
  else
    style

/--
Whether the style of a token depends on the word it is.
-/
def dependsOnWord (style : Style) : Bool :=
  Style.identifiers.contains style || Style.pseudo.contains style || style == Style.important
    || style == Style.directive

structure Scan where
  cursor : Cursor
  context : Context
  deriving DecidableEq, Repr

namespace Scan

def withCursor (s : Scan) (cursor : Cursor) : Scan :=
  { s with cursor }

/--
A comment is no more than a blank: behind it, the style in front of it goes on.
-/
def leaveComment (s : Scan) : Scan :=
  let c := s.cursor
  let style := s.context.beforeComment?.getD Style.default
  if c.state == Style.comment && c.seesPair '*' '/' then
    s.withCursor (c.forward.forwardSetState style)
  else if c.state == Style.commentLine && c.atLineEnd then
    s.withCursor (c.setState style)
  else
    s

/--
The number of backslashes right in front of `pos`.
-/
def backslashesBefore (doc : Document) (pos : Nat) : Nat :=
  match pos with
  | 0 => 0
  | pos + 1 => if doc.byteAt pos 0 == 0x5C then backslashesBefore doc pos + 1 else 0

/--
Whether the cursor stands on a quote that no backslash takes along.
-/
def closesString (quote : Code) (c : Cursor) : Bool :=
  c.cur == quote && backslashesBefore c.doc c.pos % 2 == 0

def leaveOperator (s : Scan) : Scan :=
  match styleAfter? s.context with
  | some style => s.withCursor (s.cursor.setState style)
  | none => s

/--
Decide the style of the word in front of the cursor.
-/
def classify (keywords : Keywords) (s : Scan) : Scan :=
  let c := s.cursor
  if isWord c.prev && dependsOnWord c.state then
    let word := String.ofList ((c.tokenLower 99).toList.dropWhile fun x => !isWord x.toNat)
    s.withCursor (c.changeState (wordStyle keywords s.context c.state word))
  else
    s

/--
A class, an id or a pseudo-class ends, unless another one or the parenthesis of a pseudo-class
follows.
-/
def leaveSelector (s : Scan) : Scan :=
  let c := s.cursor
  if !c.cur.isOneOf ".:#" &&
      (c.state == Style.cssClass || c.state == Style.id ||
        (!c.cur.isOneOf "()" && Style.pseudo.contains c.state)) then
    s.withCursor (c.setState Style.tag)
  else
    s

/--
Whether the current character is an operator in the open token.
-/
def seesOperator (c : Cursor) : Bool :=
  isOperator c.cur
    && (c.state != Style.attributeName || c.sees ']')
    && (c.state != Style.value || c.cur.isOneOf ";\x7d!")
    && ((c.state != Style.directive && c.state != Style.media) || c.cur.isOneOf ";\x7b")

def startComment (style : Style) (s : Scan) : Scan :=
  { s with
    context := { s.context with beforeComment? := some s.cursor.state }
    cursor := (s.cursor.setState style).forward }

/--
Start a comment, a string or an operator.
-/
def start (s : Scan) : Scan :=
  let c := s.cursor
  if c.seesPair '/' '*' then
    s.startComment Style.comment
  else if c.seesPair '/' '/' then
    s.startComment Style.commentLine
  else if (c.state == Style.value || c.state == Style.attributeName) &&
      (c.cur == Code.quote || c.cur == Code.apostrophe) then
    { s with
      context := { s.context with beforeString? := some c.state }
      cursor := c.setState (if c.cur == Code.quote then Style.doubleString else Style.singleString) }
  else if seesOperator c then
    let lastStyle? := if c.state == Style.operator then s.context.lastStyle? else some c.state
    { s with
      context :=
        { s.context with lastStyle?, operator? := some ⟨UInt8.ofNat c.cur, c.prev.is ':'⟩ }
      cursor := c.setState Style.operator }
  else
    s

/--
A step outside of comments and strings.
-/
def stepOutside (keywords : Keywords) (s : Scan) : Scan :=
  let s := if s.cursor.state == Style.operator then s.leaveOperator else s
  let c := s.cursor
  if isWord c.cur then
    if c.state == Style.default then s.withCursor (c.setState Style.tag) else s
  else if c.sees '*' && c.state == Style.default then
    s.withCursor (c.setState Style.tag)
  else
    (s.classify keywords).leaveSelector.start

def stepInString (keywords : Keywords) (quote : Code) (s : Scan) : Scan :=
  if closesString quote s.cursor then
    (s.withCursor (s.cursor.forwardSetState (s.context.beforeString?.getD Style.value))).stepOutside keywords
  else
    s

def stepInToken (keywords : Keywords) (s : Scan) : Scan :=
  let s := s.leaveComment
  match s.cursor.state with
  | Style.comment | Style.commentLine => s
  | Style.doubleString => s.stepInString keywords Code.quote
  | Style.singleString => s.stepInString keywords Code.apostrophe
  | _ => s.stepOutside keywords

def step (keywords : Keywords) (s : Scan) : Scan :=
  let s := if s.cursor.atLineStart then s.withCursor s.cursor.commit else s
  let s := s.stepInToken keywords
  let c := s.cursor
  let c := if c.atLineEnd then c.setLineState c.line s.context.pack else c
  s.withCursor c.forward

/--
The scan a pass starts with, which goes on from the line above.
-/
def ofSpan (span : Span) (doc : Document) : Scan :=
  let cursor := Cursor.start doc span
  { cursor, context := .before doc cursor.line }

end Scan

def colour : Pass := fun keywords span doc =>
  let s := Scan.ofSpan span doc
  (repeatWhile (·.cursor.more) (Scan.step keywords) s.cursor.remaining s).cursor.complete

end Highlight.Scss
