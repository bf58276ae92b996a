import Highlight.Fold.Sweep
import Highlight.Gibiane.Token
import Highlight.Lexer

/-!
Folding Gibiane by its keywords.

A pass starts one line above its span, so that a word on that line still counts for the next one.
-/

namespace Highlight.Gibiane

/--
The words that open a block, besides `si`.
-/
def openers : List (List UInt8) :=
  [Utf8.encode "repeter", Utf8.encode "debproc", Utf8.encode "debmeth"]

/--
The words that close a block, besides `fin` and a name.
-/
def closers : List (List UInt8) :=
  [Utf8.encode "finsi", Utf8.encode "finproc", Utf8.encode "finmeth"]

/--
A sweep with the place where the last word starts and what is known about the line.
-/
structure FoldScan where
  sweep : Sweep
  wordStart : Nat
  /-- The byte in front ends a line. -/
  behindLineEnd : Bool
  /-- The byte in front of that one ends a line. -/
  secondBehindLineEnd : Bool
  inComment : Bool
  /-- The sweep is still on the line above its span. -/
  onLineAbove : Bool
  deriving DecidableEq, Repr

namespace FoldScan

/--
The word that ends with the byte at `pos`, in lower case and with at most 31 letters.
-/
def word (s : FoldScan) (pos : Nat) : List UInt8 :=
  let length := min (pos + 1 - s.wordStart) 31
  (s.sweep.doc.bytes s.wordStart (s.wordStart + length)).toList.map
    fun b => UInt8.ofNat (Code.toLower b.toNat)

/--
Whether the first byte from `pos` on that is neither a blank nor a quote comes before `stop` and is
no semicolon.
-/
def nameFollows (doc : Document) (pos stop : Nat) : Bool :=
  let rest := (doc.bytes pos stop).toList.map UInt8.toNat
  match rest.find? fun c => !isBlank c && !isQuote c with
  | some c => !Code.is c ';'
  | none => false

/--
What a word does to the depth. A `sinon` closes a block and opens one; on the line above the span,
the level of the line accounts for the first part already.
-/
def countWord (s : FoldScan) (word : List UInt8) (stop : Nat) : FoldScan :=
  let sweep := s.sweep
  if word == Utf8.encode "si" || openers.any (abbreviates word) then
    { s with sweep := sweep.shift 1 }
  else if word == Utf8.encode "fin" then
    if nameFollows sweep.doc (s.wordStart + word.length) stop then
      { s with sweep := sweep.shift (-1) }
    else
      s
  else if closers.any (abbreviates word) then
    { s with sweep := sweep.shift (-1) }
  else if abbreviates word (Utf8.encode "sinon") then
    if s.onLineAbove then
      { s with sweep := sweep.shift 1 }
    else
      { s with sweep := { sweep with own := sweep.own - 1 } }
  else
    s

/--
A word starts behind a byte of the default style, and behind blanks, line ends and quotes.
-/
def placeWord (s : FoldScan) (before : Style) (c : Code) (pos : Nat) : FoldScan :=
  let s := if before == Style.default then { s with wordStart := pos } else s
  if isBlank c || c.isLineEnd || isQuote c then { s with wordStart := pos + 1 } else s

/--
A star at the start of a line makes the rest of it a comment, in which nothing counts.
-/
def placeComment (s : FoldScan) (c : Code) (pos : Nat) : FoldScan :=
  if (c.is '*' && (s.secondBehindLineEnd || s.behindLineEnd)) || s.inComment then
    { s with inComment := true, wordStart := pos + 1, sweep := { s.sweep with visible := 0 } }
  else
    s

def endByte (compact : Bool) (s : FoldScan) (b : UInt8) (pos : Nat) : FoldScan :=
  let endsLine := LineIndex.endsLine s.sweep.doc.text pos
  let s := { s with secondBehindLineEnd := s.behindLineEnd, behindLineEnd := endsLine }
  let s :=
    if endsLine then
      { s with
        sweep := s.sweep.storeLevel (s.sweep.plainLevel compact)
        inComment := false
        onLineAbove := false }
    else
      s
  { s with sweep := s.sweep.see b }

/--
Fold the byte at `pos`. Words in strings and comments do not count.
-/
def step (compact : Bool) (span : Span) (s : FoldScan) (pos : Nat) : FoldScan :=
  let doc := s.sweep.doc
  let b := doc.byteAt pos 0x20
  let next : Code := (doc.byteAt (pos + 1) 0x20).toNat
  let s := (s.placeWord (span.styleBefore doc pos) b.toNat pos).placeComment b.toNat pos
  let s :=
    if (isSeparator next || isQuote next) && !s.inComment && doc.styleAt pos != Style.string then
      s.countWord (s.word pos) span.stop
    else
      s
  s.endByte compact b pos

end FoldScan

/--
A span and the line above it, if there is one.
-/
def withLineAbove (doc : Document) (span : Span) : Span :=
  let line := doc.lineOf span.start
  if 0 < line then
    let start := doc.lineStart (line - 1)
    { span with start, length := span.stop - start }
  else
    span

def fold : Pass := fun _ span doc =>
  let span := doc.wholeLines span
  let compact := doc.options.getFlag "fold.compact" true
  let line := doc.lineOf span.start
  let first := line - 1
  let span := withLineAbove doc span
  let s : FoldScan :=
    { sweep := Sweep.ofDepth doc first (doc.level first).number.toInt
      wordStart := 0
      behindLineEnd := true
      secondBehindLineEnd := true
      inComment := false
      onLineAbove := 0 < line }
  ((List.range' span.start span.length).foldl (FoldScan.step compact span) s).sweep.doc

end Highlight.Gibiane
