import Highlight.Text.Code
import Highlight.Yaml.Source

/-!
The three ways to write a text in YAML that can span lines: plainly, in quotes, and as a block.

Plain texts and texts in quotes are parts with gaps between them. A gap is collected from its end to
its start and contributes what `fold` says as soon as another part follows.
-/

namespace Highlight.Yaml

/--
What a gap contributes to a text: its blanks, or, if it holds line ends, those but the first one. A
line feed alone is a blank, and the first line end stays if it is none.
-/
def fold (gap : List Char) : List Char :=
  match gap.reverse.filter isLineEnd with
  | [] => gap.reverse
  | first :: more =>
    if first != '\n' then
      first :: more
    else if more.isEmpty then
      [' ']
    else
      more

/- Plain texts -/

/--
A plain text with what follows it. `lineEnded` says that it takes line ends behind its last part.
-/
structure PlainText where
  text : List Char
  lineEnded : Bool
  rest : Source

def PlainText.prepend (front : List Char) (found : PlainText) : PlainText :=
  { found with text := front ++ found.text }

/--
Whether a plain text ends in front of `s`: at a colon in front of a gap and, in brackets and braces,
at their signs.
-/
def endsPlain (flow : Bool) (s : Source) : Bool :=
  match s with
  | [] => true
  | g :: rest => (g.char == ':' && startsGap rest) || (flow && isFlowSign g.char)

/--
Whether a colon comes that is neither a part of a plain text nor its end.
-/
def isStrayColon (flow : Bool) (s : Source) : Bool :=
  match s with
  | [] => false
  | g :: rest =>
    flow && g.char == ':' && startsWith (fun c => c == '?' || isFlowSign c) rest

/--
Read on in a plain text, behind the gap `gap`. Outside of brackets and braces, its further lines
start at the column `least` or behind it, and nowhere is a tab a part of such an indentation.
-/
def plainFrom? (flow : Bool) (least : Nat) (gap : List Char) (s : Source) : Option PlainText :=
  let ended := gap.any isLineEnd
  match s with
  | [] => some ⟨[], ended, []⟩
  | g :: rest =>
    if isGap g.char then
      if g.char == '\t' && ended && g.column < least then
        none
      else
        plainFrom? flow least (g.char :: gap) rest
    else if !gap.isEmpty &&
        ((!flow && g.column < least) || startsAnyMarker (g :: rest) || g.char == '#') then
      some ⟨[], ended, g :: rest⟩
    else if isStrayColon flow (g :: rest) then
      none
    else if endsPlain flow (g :: rest) then
      some ⟨[], ended, g :: rest⟩
    else
      (plainFrom? flow least [] rest).map (·.prepend (fold gap ++ [g.char]))

def plain? (flow : Bool) (least : Nat) (s : Source) : Option PlainText :=
  plainFrom? flow least [] s

/--
Whether a plain text can start with `s`.
-/
def startsPlain (flow : Bool) (s : Source) : Bool :=
  match s with
  | [] => false
  | g :: rest =>
    if g.char == '-' then
      !startsGap rest
    else if g.char == '?' || g.char == ':' then
      !flow && !startsGap rest
    else
      !isGap g.char && !isFlowSign g.char && !"#&*!|>'\"%@\u0060".toList.contains g.char

/- Texts in quotes -/

/--
Read on in a text in single quotes, behind the gap `gap`.
-/
def singleQuoted? (gap : List Char) (s : Source) : Option (List Char × Source) :=
  match s with
  | [] => none
  | g :: rest =>
    let prepend (found : List Char × Source) := (fold gap ++ g.char :: found.1, found.2)
    if isGap g.char then
      singleQuoted? (g.char :: gap) rest
    else if startsAnyMarker (g :: rest) then
      none
    else if g.char == '\x27' then
      match rest with
      | [] => some (fold gap, [])
      | g' :: rest' =>
        if g'.char == '\x27' then (singleQuoted? [] rest').map prepend else some (fold gap, g' :: rest')
    else
      (singleQuoted? [] rest).map prepend

/--
The character with the number that `count` hexadecimal digits give.
-/
def hexChar? (count : Nat) (text : List Char) : Option Char :=
  let digits := text.take count
  if digits.length == count then
    match digits.foldlM (fun value c => do
        let digit ← Code.digitValue? c.toNat
        if digit < 16 then some (value * 16 + digit) else none) 0 with
    | some value => if value.isValidChar then some (Char.ofNat value) else none
    | none => none
  else
    none

/--
The character that a letter behind a backslash stands for.
-/
def escaped? (c : Char) : Option Char :=
  [('0', '\x00'), ('a', '\x07'), ('b', '\x08'), ('t', '\t'), ('\t', '\t'), ('n', '\n'), ('v', '\x0b'),
   ('f', '\x0c'), ('r', '\r'), ('e', '\x1b'), (' ', ' '), ('"', '"'), ('/', '/'), ('\\', '\\'),
   ('N', '\u0085'), ('_', '\u00a0'), ('L', '\u2028'), ('P', '\u2029')].lookup c

/--
The number of hexadecimal digits behind a letter behind a backslash; none behind any other.
-/
def hexDigits (c : Char) : Nat :=
  ([('x', 2), ('u', 4), ('U', 8)].lookup c).getD 0

/--
The character that stands behind a backslash, if it is no line end, with what follows.
-/
def escape? (s : Source) : Option (Char × Source) :=
  match s with
  | [] => none
  | g :: rest =>
    let count := hexDigits g.char
    let c? := if count == 0 then escaped? g.char else hexChar? count (chars rest)
    c?.map fun c => (c, rest.drop count)

theorem length_of_escape? {s rest : Source} {c : Char} (h : escape? s = some (c, rest)) :
    rest.length < s.length := by
  cases s with
  | nil => simp [escape?] at h
  | cons g s =>
    simp only [escape?, Option.map_eq_some_iff, Prod.mk.injEq] at h
    obtain ⟨_, _, _, rfl⟩ := h
    simp only [List.length_drop, List.length_cons]
    omega

/--
Read on in a text in double quotes, behind the gap `gap`. A backslash at the end of a line joins the
next line to it: the gap behind it, which `joined` marks, contributes its further line ends only.
-/
def doubleQuoted? (joined : Bool) (gap : List Char) (s : Source) : Option (List Char × Source) :=
  let front := if joined then gap.reverse.filter isLineEnd else fold gap
  match s with
  | [] => none
  | g :: rest =>
    if isGap g.char then
      doubleQuoted? joined (g.char :: gap) rest
    else if startsAnyMarker (g :: rest) then
      none
    else if g.char == '"' then
      some (front, rest)
    else if g.char == '\\' then
      if startsWith isLineEnd rest then
        (doubleQuoted? true [] (rest.drop 1)).map fun found => (front ++ found.1, found.2)
      else
        match _h : escape? rest with
        | none => none
        | some (c, rest') =>
          (doubleQuoted? false [] rest').map fun found => (front ++ c :: found.1, found.2)
    else
      (doubleQuoted? false [] rest).map fun found => (front ++ g.char :: found.1, found.2)
termination_by s.length
decreasing_by
  all_goals simp only [List.length_drop, List.length_cons]
  · omega
  · omega
  · have := length_of_escape? ‹_›
    omega
  · omega

/--
Read a text in quotes, with the source in front of the opening quote.
-/
def quoted? (s : Source) : Option (List Char × Source) :=
  match s with
  | [] => none
  | g :: rest => if g.char == '"' then doubleQuoted? false [] rest else singleQuoted? [] rest

/- Texts as blocks -/

/--
What stays of the line ends at the end of a block: none, that of the last line, or all.
-/
inductive Chomping where
  | strip
  | clip
  | keep
  deriving DecidableEq, Repr

def Chomping.ofSign? (c : Char) : Option Chomping :=
  if c == '-' then
    some .strip
  else if c == '+' then
    some .keep
  else
    none

/--
How a block is written: line by line or folded, and how many columns its lines are indented, if that
is said.
-/
structure BlockStyle where
  folded : Bool
  chomping : Chomping
  indent? : Option Nat

/--
The number of columns that a digit of a block stands for.
-/
def indentOfDigit? (c : Char) : Option Nat :=
  if '1' ≤ c && c ≤ '9' then some (c.toNat - 0x30) else none

/--
Read the signs behind that of a block: one for its end and a digit for its indentation, in any order.
-/
def BlockStyle.ofSigns? (folded : Bool) (signs : List Char) : Option BlockStyle :=
  match signs with
  | [] => some ⟨folded, .clip, none⟩
  | [c] =>
    match Chomping.ofSign? c with
    | some chomping => some ⟨folded, chomping, none⟩
    | none => (indentOfDigit? c).map fun indent => ⟨folded, .clip, some indent⟩
  | [c, c'] =>
    let (sign, digit) := if (Chomping.ofSign? c).isSome then (c, c') else (c', c)
    match Chomping.ofSign? sign, indentOfDigit? digit with
    | some chomping, some indent => some ⟨folded, chomping, some indent⟩
    | _, _ => none
  | _ => none

/--
The line ends in front of the next line of a block that is not empty, the largest indentation there
and what follows. The indentation `indent?` is left out; no tab stands in it. If it is not known, all
spaces are.
-/
def blockGap? (indent? : Option Nat) (s : Source) : Option (List Char × Nat × Source) :=
  match s with
  | [] => some ([], 0, [])
  | g :: rest =>
    let indented := indent?.any (· ≤ g.column)
    if !indented && g.char == ' ' then
      blockGap? indent? rest
    else if !indented && g.char == '\t' then
      none
    else if isLineEnd g.char then
      (blockGap? indent? rest).map fun found => (g.char :: found.1, max g.column found.2.1, found.2.2)
    else
      some ([], g.column, g :: rest)

/--
Read on in a block, in front of a line. `lineEnd` is the end of the line before, and `gap` holds those
of the empty lines since. In a folded block they become the same as in other texts, but not next to
lines that start with a blank: `afterBlank` says that the line before is one.
-/
def blockLines? (style : BlockStyle) (indent bound : Nat) (lineEnd gap : List Char) (afterBlank : Bool)
    (s : Source) : Option (List Char × Source) :=
  match bound with
  | 0 => none
  | bound + 1 =>
    if startsIn indent s then do
      let line := s.takeWhile fun g => !isLineEnd g.char
      let below := dropLine s
      let blank := startsWith isBlank s
      let front :=
        if !style.folded || lineEnd != ['\n'] || afterBlank || blank then
          lineEnd
        else if gap.isEmpty then
          [' ']
        else
          []
      let (gap', _, rest) ← blockGap? (some indent) (below.drop 1)
      let found ← blockLines? style indent bound (chars (below.take 1)) gap' blank rest
      some (front ++ gap ++ chars line ++ found.1, found.2)
    else
      some ((if style.chomping == .strip then [] else lineEnd) ++
        (if style.chomping == .keep then gap else []), s)

/--
Read a block, with the source in front of its sign. `least` is the least column of what stands inside
the value that the block belongs to.
-/
def block? (least : Nat) (s : Source) : Option (List Char × Source) := do
  let signs := (s.drop 1).takeWhile fun g => g.char == '-' || g.char == '+' || g.char.isDigit
  let style ← BlockStyle.ofSigns? (startsWith (· == '>') s) (chars signs)
  let s ← finishLine? (s.drop (signs.length + 1))
  let indent? := style.indent?.map (least - 1 + ·)
  let (gap, deepest, rest) ← blockGap? indent? s
  let indent := indent?.getD (max deepest (max least 1))
  blockLines? style indent (s.length + 1) [] gap false rest

end Highlight.Yaml
