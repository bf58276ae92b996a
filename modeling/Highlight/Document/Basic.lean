import Highlight.Document.LineState
import Highlight.Text.Encoding
import Highlight.Text.LineIndex
import Highlight.Style.Run
import Highlight.Fold.Region
import Highlight.Options

/-!
Documents: a text with a style for each byte, a state and a fold level for each line, and options.

Reading past the end gives a default and writing past the end does nothing, so that a language can
look ahead freely.
-/

namespace Highlight

/--
A text and what is known about it. Styles below `endStyled` are valid.
-/
structure Document where
  text : Array UInt8
  styles : Array Style
  lines : LineIndex
  lineStates : Array LineState
  levels : Array Level
  options : Options
  encoding : Encoding
  endStyled : Nat
  deriving DecidableEq, Repr

/--
A range that is to be coloured or folded, and the style in front of it.
-/
structure Span where
  start : Nat
  length : Nat
  style : Style
  deriving DecidableEq, Repr

def Span.stop (span : Span) : Nat :=
  span.start + span.length

namespace Document

/--
A text that nothing is known about yet.
-/
def ofText (text : Array UInt8) : Document :=
  let lines := LineIndex.ofText text
  { text
    styles := .replicate text.size 0
    lines
    lineStates := .replicate lines.count 0
    levels := .replicate lines.count .base
    options := .empty
    encoding := .singleByte
    endStyled := 0 }

def size (doc : Document) : Nat :=
  doc.text.size

def isEmpty (doc : Document) : Bool :=
  doc.text.isEmpty

def byteAt? (doc : Document) (pos : Nat) : Option UInt8 :=
  doc.text[pos]?

/--
The byte at `pos`, and `fallback` past the end.
-/
def byteAt (doc : Document) (pos : Nat) (fallback : UInt8) : UInt8 :=
  doc.text[pos]?.getD fallback

/--
The bytes from `start` up to but not including `stop`.
-/
def bytes (doc : Document) (start stop : Nat) : Array UInt8 :=
  doc.text.extract start stop

/--
The character at `pos` and its width.
-/
def decodeAt (doc : Document) (pos : Nat) : Code × Nat :=
  doc.encoding.decodeAt doc.text pos

def holdsAt (doc : Document) (pos : Nat) (bytes : List UInt8) : Bool :=
  match bytes with
  | [] => true
  | b :: bytes => doc.byteAt? pos == some b && doc.holdsAt (pos + 1) bytes

/--
Whether the text `s` stands at `pos`.
-/
def matchesAt (doc : Document) (pos : Nat) (s : String) : Bool :=
  doc.holdsAt pos (Utf8.encode s)

def styleAt (doc : Document) (pos : Nat) : Style :=
  doc.styles[pos]?.getD 0

def lineCount (doc : Document) : Nat :=
  doc.lines.count

def lineOf (doc : Document) (pos : Nat) : Nat :=
  doc.lines.lineOf pos

def lineStart (doc : Document) (line : Nat) : Nat :=
  doc.lines.lineStart line

def lineEnd (doc : Document) (line : Nat) : Nat :=
  doc.lines.lineEnd doc.text line

/--
The bytes of a line without its terminator.
-/
def lineText (doc : Document) (line : Nat) : Array UInt8 :=
  doc.bytes (doc.lineStart line) (doc.lineEnd line)

def lineState (doc : Document) (line : Nat) : LineState :=
  doc.lineStates[line]?.getD 0

/--
The state of the line above `line`, if there is one.
-/
def lineStateAbove? (doc : Document) (line : Nat) : Option LineState :=
  if 0 < line then some (doc.lineState (line - 1)) else none

def level (doc : Document) (line : Nat) : Level :=
  doc.levels[line]?.getD .base

/--
The depth that `line` starts with: what the level of the line above says, and the base level for the
first line.
-/
def levelBefore (doc : Document) (line : Nat) : Level :=
  if 0 < line then (doc.level (line - 1)).next else .base

def styleRuns (doc : Document) : List StyleRun :=
  StyleRun.ofStyles doc.styles

def regions (doc : Document) : List Region :=
  Region.ofLevels doc.levels

def paint (styles : Array Style) (pos : Nat) (style : Style) (count : Nat) : Array Style :=
  match count with
  | 0 => styles
  | count + 1 => paint (styles.setIfInBounds pos style) (pos + 1) style count

/--
Give the bytes from `start` up to but not including `stop` a style.
-/
def setStyles (doc : Document) (start stop : Nat) (style : Style) : Document :=
  { doc with styles := paint doc.styles start style (min stop doc.styles.size - start) }

def setLineState (doc : Document) (line : Nat) (state : LineState) : Document :=
  { doc with lineStates := doc.lineStates.setIfInBounds line state }

def setLevel (doc : Document) (line : Nat) (level : Level) : Document :=
  { doc with levels := doc.levels.setIfInBounds line level }

def setOption (doc : Document) (key value : String) : Document :=
  { doc with options := doc.options.set key value }

def eraseOption (doc : Document) (key : String) : Document :=
  { doc with options := doc.options.erase key }

def setEncoding (doc : Document) (encoding : Encoding) : Document :=
  { doc with encoding }

/--
Declare the styles below `pos` valid.
-/
def setEndStyled (doc : Document) (pos : Nat) : Document :=
  { doc with endStyled := min pos doc.size }

/--
The whole lines that a span covers. It starts at the start of its first line, with the style in
front of that line, and a span that holds a byte ends at the next line start.
-/
def wholeLines (doc : Document) (span : Span) : Span :=
  let start := min span.start doc.size
  let stop := min (start + span.length) doc.size
  let lineStart := doc.lineStart (doc.lineOf start)
  let style :=
    if lineStart == start then
      span.style
    else if 0 < lineStart then
      doc.styleAt (lineStart - 1)
    else
      0
  let stop :=
    if lineStart < stop && doc.lineStart (doc.lineOf stop) != stop then
      doc.lineStart (doc.lineOf stop + 1)
    else
      stop
  { start := lineStart, length := stop - lineStart, style }

/--
The span from the start of the line of `start` up to `stop`, with the style in front of it; `none`
if the range has no byte.
-/
def linesSpan? (doc : Document) (start stop : Nat) : Option Span :=
  let stop := min stop doc.size
  if start < stop then
    let lineStart := doc.lineStart (doc.lineOf start)
    some
      { start := lineStart
        length := stop - lineStart
        style := if lineStart == 0 then 0 else doc.styleAt (lineStart - 1) }
  else
    none

end Document

end Highlight
