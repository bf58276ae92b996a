import Highlight.Document.Basic

/-!
Sweeps: walks over the bytes of whole lines that count depths and store a level for each line they
leave.
-/

namespace Highlight

/--
A sweep in the middle of `line`. The line starts with depth `own`, `next` is the depth after the
bytes seen so far, `least` is the least depth in front of a block that opens on the line, and
`visible` counts the bytes seen that show something.
-/
structure Sweep where
  doc : Document
  line : Nat
  own : Int
  least : Int
  next : Int
  visible : Nat
  deriving DecidableEq, Repr

namespace Sweep

/--
A sweep at the start of `line`, which starts with the depth `depth`.
-/
def ofDepth (doc : Document) (line : Nat) (depth : Int) : Sweep :=
  { doc, line, own := depth, least := depth, next := depth, visible := 0 }

/--
A sweep at the start of `line`, which goes on from the depth the line above has left.
-/
def start (doc : Document) (line : Nat) : Sweep :=
  ofDepth doc line (doc.levelBefore line).toInt

/--
The depth changes by `change`.
-/
def shift (sweep : Sweep) (change : Int) : Sweep :=
  { sweep with next := sweep.next + change }

/--
A brace opens or closes a block; any other byte changes nothing.
-/
def brace (sweep : Sweep) (b : UInt8) : Sweep :=
  if b == 0x7B then
    { sweep with least := min sweep.least sweep.next }.shift 1
  else if b == 0x7D then
    sweep.shift (-1)
  else
    sweep

def see (sweep : Sweep) (b : UInt8) : Sweep :=
  if Code.isSpace b.toNat then sweep else { sweep with visible := sweep.visible + 1 }

/--
Store `level` for the line, and go to the next one.
-/
def storeLevel (sweep : Sweep) (level : Level) : Sweep :=
  ofDepth (sweep.doc.setLevel sweep.line level) (sweep.line + 1) sweep.next

/--
Store the level of the line, of which the depth is `own`, and go to the next one.
-/
def closeLine (sweep : Sweep) (own : Int) (compact : Bool) : Sweep :=
  sweep.storeLevel (Level.compose (Int32.ofInt own) (Int32.ofInt sweep.next) sweep.visible compact)

/--
The level of the line, where it keeps no depth for the next one. A line that shows nothing is no
header.
-/
def plainLevel (sweep : Sweep) (compact : Bool) : Level :=
  let level := Int32.ofInt sweep.own
  let level := if sweep.visible == 0 && compact then level ||| Level.whiteFlag else level
  if sweep.own < sweep.next && 0 < sweep.visible then level ||| Level.headerFlag else level

end Sweep

/--
Fold the bytes of `span` one after the other.
-/
def Sweep.over (span : Span) (step : Sweep → Nat → Sweep) (sweep : Sweep) : Sweep :=
  (List.range' span.start span.length).foldl step sweep

/--
What a comment that spans lines adds to the depth at one of its bytes. Its first byte opens a block;
its last byte closes it, but not at the end of a line, where the byte after it may have no style yet.
-/
def streamCommentChange (isComment : Style → Bool) (before style after : Style) (endsLine : Bool) : Int :=
  if !isComment style then
    0
  else if !isComment before then
    1
  else if !isComment after && !endsLine then
    -1
  else
    0

/--
The style in front of `pos`. At the start of the span it is the one given with the span.
-/
def Span.styleBefore (span : Span) (doc : Document) (pos : Nat) : Style :=
  if pos == span.start then span.style else doc.styleAt (pos - 1)

end Highlight
