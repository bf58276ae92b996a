import Highlight.Fold.Sweep
import Highlight.Lexer
import Highlight.R.Token

/-!
Folding R by its braces.
-/

namespace Highlight.R

/--
What folding depends on: whether blank lines are white, and whether a line that closes one block and
opens the next one is as deep as the place between them.
-/
structure FoldOptions where
  compact : Bool
  atElse : Bool

def FoldOptions.read (options : Options) : FoldOptions :=
  { compact := options.getFlag "fold.compact" true
    atElse := options.getFlag "fold.at.else" false }

def foldByte (options : FoldOptions) (sweep : Sweep) (pos : Nat) : Sweep :=
  let b := sweep.doc.byteAt pos 0x20
  let sweep := if sweep.doc.styleAt pos == Style.operator then sweep.brace b else sweep
  let sweep :=
    if LineIndex.endsLine sweep.doc.text pos then
      sweep.closeLine (if options.atElse then sweep.least else sweep.own) options.compact
    else
      sweep
  sweep.see b

def fold : Pass := fun _ span doc =>
  let span := doc.wholeLines span
  let options := FoldOptions.read doc.options
  ((Sweep.start doc (doc.lineOf span.start)).over span (foldByte options)).doc

end Highlight.R
