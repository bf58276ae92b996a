import Highlight.Cursor
import Highlight.Iteration
import Highlight.Lexer
import Highlight.R.Token

/-!
Colouring R.

Nothing but the style in front of a line is needed to go on there. A special operator ends with its
line at the latest.
-/

namespace Highlight.R

def startsNumber (c : Cursor) : Bool :=
  c.cur.isDigit || (c.sees '.' && c.next.isDigit)

/--
The style of a word: that of the first list which has it.
-/
def wordStyle (keywords : Keywords) (word : String) : Style :=
  if (keywords.list 0).contains word then
    Style.keyword
  else if (keywords.list 1).contains word then
    Style.baseFunction
  else if (keywords.list 2).contains word then
    Style.packageFunction
  else
    Style.identifier

/--
A string goes up to its closing quote. A backslash takes a quote or a backslash after it along.
-/
def leaveString (quote : Code) (c : Cursor) : Cursor :=
  if c.cur == Code.backslash then
    if c.next == Code.quote || c.next == Code.apostrophe || c.next == Code.backslash then
      c.forward
    else
      c
  else if c.cur == quote then
    c.forwardSetState Style.default
  else
    c

/--
End the open token if it does not go on with the current character.
-/
def leave (keywords : Keywords) (c : Cursor) : Cursor :=
  match c.state with
  | Style.operator => c.setState Style.default
  | Style.number => if startsNumber c then c else c.setState Style.default
  | Style.identifier =>
    if isWord c.cur then
      c
    else
      (c.changeState (wordStyle keywords (c.token 99))).setState Style.default
  | Style.comment => if c.seesLineEnd then c.setState Style.default else c
  | Style.string => leaveString Code.quote c
  | Style.singleQuoted => leaveString Code.apostrophe c
  | Style.special =>
    if c.sees '%' then
      c.forwardSetState Style.default
    else if c.atLineEnd then
      (c.changeState Style.specialUnclosed).forwardSetState Style.default
    else
      c
  | _ => c

/--
The style of the token that the current character starts.
-/
def starting? (c : Cursor) : Option Style :=
  if startsNumber c then
    some Style.number
  else if isWordStart c.cur then
    some Style.identifier
  else if c.sees '#' then
    some Style.comment
  else if c.cur == Code.quote then
    some Style.string
  else if c.sees '%' then
    some Style.special
  else if c.cur == Code.apostrophe then
    some Style.singleQuoted
  else if isOperator c.cur then
    some Style.operator
  else
    none

/--
Outside of a token, start the one the current character belongs to.
-/
def enter (c : Cursor) : Cursor :=
  if c.state == Style.default then
    match starting? c with
    | some style => c.setState style
    | none => c
  else
    c

def step (keywords : Keywords) (c : Cursor) : Cursor :=
  (enter (leave keywords c)).forward

/--
The cursor a pass starts with. A special operator of the line above is over.
-/
def start (span : Span) (doc : Document) : Cursor :=
  let c := Cursor.start doc span
  if c.state == Style.specialUnclosed then c.changeState Style.default else c

def colour : Pass := fun keywords span doc =>
  let c := start span doc
  (repeatWhile Cursor.more (step keywords) c.remaining c).complete

end Highlight.R
