import Highlight.Fold.Sweep
import Highlight.Lexer
import Highlight.Scss.Token

/-!
Folding SCSS by its braces and, if comments fold, by its comments.

The depth of a line is kept in its own level, so that a pass ends by storing the depth of the line
behind it.
-/

namespace Highlight.Scss

structure FoldOptions where
  comments : Bool
  /-- Blank lines are white. -/
  compact : Bool
  deriving DecidableEq, Repr

def FoldOptions.read (options : Options) : FoldOptions :=
  { comments := options.getFlag "fold.comment" false
    compact := options.getFlag "fold.compact" true }

/--
What a comment adds to the depth at `pos`: its first byte opens a block, and the first byte behind it
closes the block.
-/
def commentChange (doc : Document) (pos : Nat) : Int :=
  let before := 0 < pos && doc.styleAt (pos - 1) == Style.comment
  let here := doc.styleAt pos == Style.comment
  if !before && here then
    1
  else if before && !here then
    -1
  else
    0

def foldByte (options : FoldOptions) (sweep : Sweep) (pos : Nat) : Sweep :=
  let b := sweep.doc.byteAt pos 0x20
  let sweep := if options.comments then sweep.shift (commentChange sweep.doc pos) else sweep
  let sweep := if sweep.doc.styleAt pos == Style.operator then sweep.brace b else sweep
  let sweep :=
    if LineIndex.endsLine sweep.doc.text pos then
      sweep.storeLevel (sweep.plainLevel options.compact)
    else
      sweep
  sweep.see b

/--
Store the depth that the current line starts with, and keep its flags.
-/
def storeDepth (sweep : Sweep) : Document :=
  let flags := sweep.doc.level sweep.line &&& ~~~(0x0FFF : Level)
  sweep.doc.setLevel sweep.line (Int32.ofInt sweep.own ||| flags)

def fold : Pass := fun _ span doc =>
  let span := doc.wholeLines span
  let line := doc.lineOf span.start
  let sweep := Sweep.ofDepth doc line (doc.level line).number.toInt
  storeDepth (sweep.over span (foldByte (FoldOptions.read doc.options)))

end Highlight.Scss
