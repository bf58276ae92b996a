import Highlight.Fold.Sweep
import Highlight.Iteration
import Highlight.Lexer
import Highlight.Sql.Abbreviation
import Highlight.Sql.Token

/-!
Folding SQL by the words that open and close blocks and, if comments fold, by comments that span
lines and by markers in comments.
-/

namespace Highlight.Sql

structure FoldOptions where
  comments : Bool
  /-- Blank lines are white. -/
  compact : Bool
  deriving DecidableEq, Repr

def FoldOptions.read (options : Options) : FoldOptions :=
  { comments := options.getFlag "fold.comment" false
    compact := options.getFlag "fold.compact" true }

/--
A sweep with the position of the next byte, the style of the byte in front, and whether the line has
an `end` that no `if` or `loop` came behind so far.
-/
structure FoldScan where
  sweep : Sweep
  pos : Nat
  before : Style
  endSeen : Bool
  deriving DecidableEq, Repr

namespace FoldScan

/--
What a marker at `pos` adds to the depth: a brace behind two dashes.
-/
def markerChange (doc : Document) (pos : Nat) : Int :=
  if doc.matchesAt pos "--\x7b" then
    1
  else if doc.matchesAt pos "--\x7d" then
    -1
  else
    0

/--
What a word at `pos` does to the depth, and how many bytes more it takes. The `if` or `loop` behind
an `end` opens nothing, and neither does an `elsif`. No `end` goes below the base level.
-/
def countWord (s : FoldScan) : FoldScan × Nat :=
  let found (word : String) := abbreviatedAt s.sweep.doc s.pos word
  if found "elsif" then
    (s, 4)
  else if found "if" || found "loop" then
    if s.endSeen then
      ({ s with endSeen := false }, 0)
    else
      ({ s with sweep := s.sweep.shift 1 }, 0)
  else if found "begin" then
    ({ s with sweep := s.sweep.shift 1 }, 0)
  else if found "end" then
    let next := max (s.sweep.next - 1) Level.base.toInt
    ({ s with endSeen := true, sweep := { s.sweep with next } }, 0)
  else
    (s, 0)

def countComment (s : FoldScan) : FoldScan :=
  let doc := s.sweep.doc
  let style := doc.styleAt s.pos
  let endsLine := LineIndex.endsLine doc.text s.pos
  let marker := if style == Style.commentLine then markerChange doc s.pos else 0
  let stream := streamCommentChange isStreamComment s.before style (doc.styleAt (s.pos + 1)) endsLine
  { s with sweep := (s.sweep.shift stream).shift marker }

def step (options : FoldOptions) (s : FoldScan) : FoldScan :=
  let doc := s.sweep.doc
  let b := doc.byteAt s.pos 0x20
  let style := doc.styleAt s.pos
  let s := if options.comments then s.countComment else s
  let counted := if style == Style.word then s.countWord else (s, 0)
  let s := counted.1
  let s :=
    if LineIndex.endsLine doc.text s.pos then
      { s with sweep := s.sweep.closeLine s.sweep.own options.compact, endSeen := false }
    else
      s
  { s with sweep := s.sweep.see b, before := style, pos := s.pos + counted.2 + 1 }

end FoldScan

def fold : Pass := fun _ span doc =>
  let span := doc.wholeLines span
  let s : FoldScan :=
    { sweep := Sweep.start doc (doc.lineOf span.start)
      pos := span.start
      before := span.style
      endSeen := false }
  (repeatWhile (·.pos < span.stop) (FoldScan.step (FoldOptions.read doc.options)) span.length s).sweep.doc

end Highlight.Sql
