import Highlight.Text.Code
import Highlight.Text.Utf8
import Highlight.Yaml.Source

/-!
Tags, which say what a value has to be, and how they are written: in full between angle brackets, or
behind a handle that stands for their beginning.

A tag is a sequence of bytes, as a percent sign in it can stand in front of any byte.
-/

namespace Highlight.Yaml

structure Tag where
  bytes : List UInt8
  deriving DecidableEq, Repr

namespace Tag

def ofString (tag : String) : Tag :=
  ⟨Utf8.encode tag⟩

/--
What the tags of YAML itself start with.
-/
def coreBytes : List UInt8 :=
  Utf8.encode "tag:yaml.org,2002:"

def core (name : String) : Tag :=
  ⟨coreBytes ++ Utf8.encode name⟩

/--
The tag that leaves open what a value is.
-/
def unspecific : Tag :=
  ofString "!"

def startsWithMark (tag : Tag) : Bool :=
  tag.bytes.head? == some 0x21

/--
Whether a tag has a meaning only where it is used: it is a text that starts with an exclamation mark.
-/
def isLocal (tag : Tag) : Bool :=
  tag.startsWithMark && Utf8.encode (Utf8.decodeLossy tag.bytes.toArray) == tag.bytes

end Tag

/--
A tag as it is written: what stands behind a handle. The tag in full has the empty handle.
-/
structure TagName where
  handle : String
  suffix : List UInt8
  deriving DecidableEq, Repr

/--
The tag that a name stands for, where each handle stands for some bytes.
-/
def TagName.resolve? (handles : List (String × List UInt8)) (name : TagName) : Option Tag :=
  if name.handle.isEmpty then
    some ⟨name.suffix⟩
  else
    (handles.lookup name.handle).map fun front => ⟨front ++ name.suffix⟩

/--
The characters of tags that stand for themselves. Those of lists do so between angle brackets only.
-/
def isTagChar (angled : Bool) (c : Char) : Bool :=
  isWordChar c || ";/?:@&=+$.!~*'()".toList.contains c ||
    (angled && (c == ',' || c == '[' || c == ']'))

/--
The byte with the number that two hexadecimal digits give.
-/
def hexByte? (digits : List Char) : Option UInt8 :=
  match digits with
  | [high, low] => do
    let high ← Code.digitValue? high.toNat
    let low ← Code.digitValue? low.toNat
    if high < 16 && low < 16 then some (UInt8.ofNat (high * 16 + low)) else none
  | _ => none

/--
The number of bytes that have to follow a byte behind a percent sign, if it can come first.
-/
def following? (b : UInt8) : Option Nat :=
  if b < 0x80 then
    some 0
  else if 0xC0 ≤ b && b < 0xE0 then
    some 1
  else if 0xE0 ≤ b && b < 0xF0 then
    some 2
  else if 0xF0 ≤ b && b < 0xF8 then
    some 3
  else
    none

/--
Read the bytes of a tag. The next `due` of them have to go on with a sequence and stand behind percent
signs.
-/
def tagBytes? (angled : Bool) (due : Nat) (s : Source) : Option (List UInt8 × Source) :=
  match s with
  | [] => if due == 0 then some ([], []) else none
  | g :: rest =>
    if g.char == '%' then
      match hexByte? (chars (rest.take 2)) with
      | none => none
      | some b =>
        let due? := if due == 0 then following? b else if Utf8.isContinuation b then some (due - 1) else none
        match due? with
        | none => none
        | some due => (tagBytes? angled due (rest.drop 2)).map fun found => (b :: found.1, found.2)
    else if due != 0 then
      none
    else if isTagChar angled g.char then
      (tagBytes? angled 0 rest).map fun found => (UInt8.ofNat g.char.toNat :: found.1, found.2)
    else
      some ([], g :: rest)
termination_by s.length
decreasing_by
  all_goals simp only [List.length_drop, List.length_cons]
  all_goals omega

/--
The bytes in front of the first zero.
-/
def untilZero (bytes : List UInt8) : List UInt8 :=
  bytes.takeWhile (· != 0)

/--
The characters from an exclamation mark on that can be a handle: those of a word, with another
exclamation mark at the end.
-/
def handlePart (s : Source) : List Char :=
  let word := (s.drop 1).takeWhile fun g => isWordChar g.char
  let behind := s.drop (word.length + 1)
  chars (s.take 1) ++ chars word ++ if startsWith (· == '!') behind then ['!'] else []

/--
Whether such characters are a handle: exclamation marks stand at both ends.
-/
def isHandle (text : List Char) : Bool :=
  1 < text.length && text.head? == some '!' && text.getLast? == some '!'

/--
Read a tag in full, with the source behind the opening bracket.
-/
def angledTag? (s : Source) : Option (TagName × Source) :=
  match tagBytes? true 0 s with
  | none => none
  | some (bytes, rest) =>
    if !bytes.isEmpty && startsWith (· == '>') rest then
      some (⟨"", untilZero bytes⟩, rest.drop 1)
    else
      none

/--
Read a tag behind a handle, with the source in front of it. A single exclamation mark is a handle too,
but with nothing behind it, it is a tag.
-/
def shortTag? (s : Source) : Option (TagName × Source) :=
  let handle := handlePart s
  match tagBytes? false 0 (s.drop handle.length) with
  | none => none
  | some (bytes, rest) =>
    if isHandle handle then
      if bytes.isEmpty then none else some (⟨String.ofList handle, untilZero bytes⟩, rest)
    else
      let suffix := untilZero (Utf8.encode (String.ofList (handle.drop 1)) ++ bytes)
      some (if suffix.isEmpty then ⟨"", Tag.unspecific.bytes⟩ else ⟨"!", suffix⟩, rest)

/--
Read a tag, with the source in front of its exclamation mark.
-/
def tag? (flow : Bool) (s : Source) : Option (TagName × Source) := do
  let found ← if startsWith (· == '<') (s.drop 1) then angledTag? (s.drop 2) else shortTag? s
  if startsGap found.2 || (flow && startsWith (· == ',') found.2) then some found else none

end Highlight.Yaml
