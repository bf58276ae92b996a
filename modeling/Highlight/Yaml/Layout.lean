import Highlight.Yaml.Text
import Highlight.Yaml.Token

/-!
Layout: the blocks that indentation opens and closes, and the keys that only the colon behind them
shows to be keys.

`tokens?` divides a text into tokens. A key on one line is written without a sign in front of it.
Therefore each place where one can start is remembered until a colon follows or the place is left
behind, and the sign is put there afterwards.
-/

namespace Highlight.Yaml

/--
A place where a key may have started: how many tokens come before it and where it stands in the text.
What starts in the column of a block has to be a key, as `required` says.
-/
structure PossibleKey where
  required : Bool
  tokens : Nat
  line : Nat
  column : Nat
  deriving DecidableEq, Repr

/--
A key ends on its line and has at most 1024 characters.
-/
def PossibleKey.isOver (key : PossibleKey) (g : Glyph) : Bool :=
  key.line < g.line || key.column + 1024 < g.column

/--
What the text up to some place says about the rest. The tokens come in reverse. `indents` holds the
columns of the open blocks, the innermost first. `key?` is the possible key since the innermost open
bracket or brace, and `outerKeys?` holds for each of these the one in front of it, which it may be
itself. `keyAllowed` says whether a key may start at the place.
-/
structure Layout where
  tokens : List Token
  indents : List Nat
  key? : Option PossibleKey
  outerKeys? : List (Option PossibleKey)
  keyAllowed : Bool
  deriving DecidableEq, Repr

namespace Layout

def start : Layout :=
  ⟨[], [], none, [], true⟩

/--
Whether a bracket or brace is open.
-/
def inFlow (layout : Layout) : Bool :=
  !layout.outerKeys?.isEmpty

/--
The least column of what stands inside the innermost block.
-/
def least (layout : Layout) : Nat :=
  match layout.indents with
  | [] => 0
  | column :: _ => column + 1

def add (layout : Layout) (token : Token) : Layout :=
  { layout with tokens := token :: layout.tokens }

/--
Put a token behind the first `count` ones.
-/
def insert (layout : Layout) (count : Nat) (token : Token) : Layout :=
  let later := layout.tokens.length - count
  { layout with tokens := layout.tokens.take later ++ token :: layout.tokens.drop later }

/--
Open a block in the column `column` behind the first `count` tokens, unless it is open.
-/
def openBlock (layout : Layout) (column count : Nat) (token : Token) : Layout :=
  if !layout.inFlow && layout.indents.head?.all (· < column) then
    { layout.insert count token with indents := column :: layout.indents }
  else
    layout

/--
Close the blocks in the column `column` and behind it.
-/
def closeBlocks (layout : Layout) (column : Nat) : Layout :=
  if layout.inFlow then
    layout
  else
    let closed := layout.indents.takeWhile (column ≤ ·)
    { layout with
      tokens := List.replicate closed.length .blockEnd ++ layout.tokens
      indents := layout.indents.drop closed.length }

/--
Give up the possible key, as no colon can follow it any more.
-/
def giveUpKey? (layout : Layout) : Option Layout :=
  if layout.key?.any (·.required) then none else some { layout with key? := none }

/--
Give up all possible keys that are over at `g`.
-/
def giveUpKeys? (layout : Layout) (g : Glyph) : Option Layout :=
  if (layout.key? :: layout.outerKeys?).any fun key? => key?.any fun key => key.required && key.isOver g then
    none
  else
    let keep (key? : Option PossibleKey) := key?.filter fun key => !key.isOver g
    some { layout with key? := keep layout.key?, outerKeys? := layout.outerKeys?.map keep }

/--
Remember that a key may start at `g`, if it is allowed there.
-/
def startKey? (layout : Layout) (g : Glyph) : Option Layout :=
  if layout.keyAllowed then
    layout.giveUpKey?.map fun layout =>
      { layout with
        key? := some
          { required := !layout.inFlow && layout.indents.head? == some g.column
            tokens := layout.tokens.length
            line := g.line
            column := g.column } }
  else
    some layout

/--
Take a value or a part of one, which may be a key and which no key can follow directly.
-/
def takeValue? (layout : Layout) (g : Glyph) (token : Token) : Option Layout :=
  (layout.startKey? g).map fun layout => { layout.add token with keyAllowed := false }

/--
Take a directive or a marker between documents.
-/
def takeBoundary? (layout : Layout) (token : Token) : Option Layout :=
  (layout.closeBlocks 0).giveUpKey?.map fun layout => { layout.add token with keyAllowed := false }

/--
Take an opening bracket or brace.
-/
def takeOpening? (layout : Layout) (g : Glyph) (token : Token) : Option Layout :=
  (layout.startKey? g).map fun layout =>
    { layout.add token with key? := none, outerKeys? := layout.key? :: layout.outerKeys?, keyAllowed := true }

/--
Take a closing bracket or brace.
-/
def takeClosing? (layout : Layout) (token : Token) : Option Layout :=
  layout.giveUpKey?.map fun layout =>
    { layout.add token with
      key? := layout.outerKeys?.head?.getD none
      outerKeys? := layout.outerKeys?.drop 1
      keyAllowed := false }

def takeComma? (layout : Layout) : Option Layout :=
  layout.giveUpKey?.map fun layout => { layout.add .comma with keyAllowed := true }

/--
Open the block that a sign at `g` belongs to. Outside of brackets and braces such signs stand only
where a key can start.
-/
def signBlock? (layout : Layout) (g : Glyph) (token : Token) : Option Layout :=
  if layout.inFlow || layout.keyAllowed then
    some (layout.openBlock g.column layout.tokens.length token)
  else
    none

/--
Take the dash in front of an item.
-/
def takeItem? (layout : Layout) (g : Glyph) : Option Layout := do
  let layout ← (← layout.signBlock? g .listStart).giveUpKey?
  some { layout.add .item with keyAllowed := true }

/--
Take the question mark in front of a key.
-/
def takeKey? (layout : Layout) (g : Glyph) : Option Layout := do
  let layout ← (← layout.signBlock? g .mapStart).giveUpKey?
  some { layout.add .key with keyAllowed := !layout.inFlow }

/--
Take the colon in front of a value. It shows the possible key to be one. If there is none, the key in
front of it has its own sign or is missing.
-/
def takeColon? (layout : Layout) (g : Glyph) : Option Layout :=
  match layout.key? with
  | some key =>
    let layout := (layout.insert key.tokens .key).openBlock key.column key.tokens .mapStart
    some { layout.add .value with key? := none, keyAllowed := false }
  | none =>
    (layout.signBlock? g .mapStart).map fun layout =>
      { layout.add .value with keyAllowed := !layout.inFlow }

/--
Take a text, from the glyph `g` on. Behind a block a key may start, and behind a plain text if that
takes the end of its line.
-/
def takeText? (layout : Layout) (g : Glyph) (rest : Source) : Option (Layout × Source) :=
  if g.char == '"' || g.char == '\x27' then do
    let (text, rest) ← quoted? (g :: rest)
    let layout ← layout.takeValue? g (.scalar false (String.ofList text))
    some (layout, rest)
  else if !layout.inFlow && (g.char == '|' || g.char == '>') then do
    let layout ← layout.giveUpKey?
    let (text, rest) ← block? layout.least (g :: rest)
    some ({ layout.add (.scalar false (String.ofList text)) with keyAllowed := true }, rest)
  else if startsPlain layout.inFlow (g :: rest) then do
    let found ← plain? layout.inFlow layout.least (g :: rest)
    let layout ← layout.takeValue? g (.scalar true (String.ofList found.text))
    some ({ layout with keyAllowed := found.lineEnded }, found.rest)
  else
    none

/--
Take the next token, which starts with the glyph `g`.
-/
def take? (layout : Layout) (g : Glyph) (rest : Source) : Option (Layout × Source) :=
  let s := g :: rest
  let c := g.char
  let isSign := layout.inFlow || startsGap rest
  let behind (s : Source) (layout? : Option Layout) := layout?.map fun layout => (layout, s)
  if g.column == 0 && c == '%' then
    (directive? s).bind fun found => behind found.2 (layout.takeBoundary? found.1)
  else if startsMarker '-' s then
    behind (s.drop 3) (layout.takeBoundary? .documentStart)
  else if startsMarker '.' s then
    behind (s.drop 3) (layout.takeBoundary? .documentEnd)
  else if c == '[' then
    behind rest (layout.takeOpening? g .openBracket)
  else if c == '\x7b' then
    behind rest (layout.takeOpening? g .openBrace)
  else if c == ']' then
    behind rest (layout.takeClosing? .closeBracket)
  else if c == '\x7d' then
    behind rest (layout.takeClosing? .closeBrace)
  else if c == ',' then
    behind rest layout.takeComma?
  else if c == '-' && startsGap rest then
    behind rest (layout.takeItem? g)
  else if c == '?' && isSign then
    behind rest (layout.takeKey? g)
  else if c == ':' && isSign then
    behind rest (layout.takeColon? g)
  else if c == '*' then
    (name? rest).bind fun found => behind found.2 (layout.takeValue? g (.alias found.1))
  else if c == '&' then
    (name? rest).bind fun found => behind found.2 (layout.takeValue? g (.anchor found.1))
  else if c == '!' then
    (tag? layout.inFlow s).bind fun found => behind found.2 (layout.takeValue? g (.tag found.1))
  else
    layout.takeText? g rest

/--
Go over the gap in front of the next token: blanks, comments, line ends and a byte order mark that
starts the text. `comment` says that a comment goes on. Behind a line end, a key may start again, and
as long as one may, a tab is no part of a gap.
-/
def skipGap (layout : Layout) (comment : Bool) (s : Source) : Layout × Source :=
  match s with
  | [] => (layout, [])
  | g :: rest =>
    if isLineEnd g.char then
      skipGap { layout with keyAllowed := layout.keyAllowed || !layout.inFlow } false rest
    else if comment || g.char == '#' then
      skipGap layout true rest
    else if g.char == ' ' || (g.char == '\t' && (layout.inFlow || !layout.keyAllowed)) ||
        (g.char == '\ufeff' && g.line == 0 && g.column == 0) then
      skipGap layout false rest
    else
      (layout, g :: rest)

def run? (layout : Layout) (bound : Nat) (s : Source) : Option Layout :=
  match bound with
  | 0 => none
  | bound + 1 =>
    match layout.skipGap false s with
    | (layout, []) => (layout.closeBlocks 0).giveUpKey?
    | (layout, g :: rest) => do
      let layout ← layout.giveUpKeys? g
      let (layout, rest) ← (layout.closeBlocks (g.column + 1)).take? g rest
      layout.run? bound rest

end Layout

/--
The tokens of a text.
-/
def tokens? (s : Source) : Option (List Token) :=
  (Layout.start.run? (s.length + 1) s).map (·.tokens.reverse)

end Highlight.Yaml
