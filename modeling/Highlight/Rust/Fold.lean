import Highlight.Fold.Sweep
import Highlight.Lexer
import Highlight.Rust.Nesting
import Highlight.Rust.Token

/-!
Folding Rust by its braces and, if comments fold, by comments that span lines, the depth of nested
comments, and markers in comments.
-/

namespace Highlight.Rust

structure FoldOptions where
  enabled : Bool
  /-- Braces fold. -/
  braces : Bool
  /-- Comments fold. -/
  comments : Bool
  /-- Of the comments, those that span lines fold. -/
  multiline : Bool
  /-- Of the comments, markers in them fold. -/
  markers : Bool
  openMarker : String
  closeMarker : String
  /-- Markers count outside of comments too. -/
  markersAnywhere : Bool
  /-- Blank lines are white. -/
  compact : Bool
  /-- A line that closes one block and opens the next one is as deep as the place between them. -/
  atElse : Bool
  deriving DecidableEq, Repr

namespace FoldOptions

def read (options : Options) : FoldOptions :=
  let atElse := options.getInt "lexer.rust.fold.at.else" (-1)
  { enabled := options.getFlag "fold" false
    braces := options.getFlag "fold.rust.syntax.based" true
    comments := options.getFlag "fold.comment" false
    multiline := options.getFlag "fold.rust.comment.multiline" true
    markers := options.getFlag "fold.rust.comment.explicit" true
    openMarker := (options.get? "fold.rust.explicit.start").getD ""
    closeMarker := (options.get? "fold.rust.explicit.end").getD ""
    markersAnywhere := options.getFlag "fold.rust.explicit.anywhere" false
    compact := options.getFlag "fold.compact" true
    atElse := if 0 ≤ atElse then atElse != 0 else options.getFlag "fold.at.else" false }

/--
Whether both markers are given. Otherwise a marker is a brace behind two slashes.
-/
def ownMarkers (options : FoldOptions) : Bool :=
  !options.openMarker.isEmpty && !options.closeMarker.isEmpty

end FoldOptions

/--
What a marker at `pos` adds to the depth.
-/
def markerChange (options : FoldOptions) (doc : Document) (pos : Nat) : Int :=
  if options.ownMarkers then
    if doc.matchesAt pos options.openMarker then
      1
    else if doc.matchesAt pos options.closeMarker then
      -1
    else
      0
  else if doc.matchesAt pos "//\x7b" then
    1
  else if doc.matchesAt pos "//\x7d" then
    -1
  else
    0

/--
What the nested comments that open and close on `line` add to the depth.
-/
def nestingChange (doc : Document) (line : Nat) : Int :=
  Nesting.unpack (doc.lineState line) - Nesting.before doc line

def foldByte (options : FoldOptions) (span : Span) (sweep : Sweep) (pos : Nat) : Sweep :=
  let doc := sweep.doc
  let b := doc.byteAt pos 0x20
  let style := doc.styleAt pos
  let endsLine := LineIndex.endsLine doc.text pos
  let sweep :=
    if options.comments && options.multiline then
      let before := span.styleBefore doc pos
      sweep.shift (streamCommentChange isStreamComment before style (doc.styleAt (pos + 1)) endsLine)
    else
      sweep
  let sweep :=
    if options.comments && options.markers && (style == Style.commentLine || options.markersAnywhere) then
      sweep.shift (markerChange options doc pos)
    else
      sweep
  let sweep := if options.braces && style == Style.operator then sweep.brace b else sweep
  let sweep :=
    if endsLine || pos + 1 == span.stop then
      let sweep :=
        if options.comments && options.multiline then
          sweep.shift (nestingChange doc sweep.line)
        else
          sweep
      sweep.closeLine (if options.braces && options.atElse then sweep.least else sweep.own) options.compact
    else
      sweep
  sweep.see b

def fold : Pass := fun _ span doc =>
  let options := FoldOptions.read doc.options
  if options.enabled then
    let span := doc.wholeLines span
    ((Sweep.start doc (doc.lineOf span.start)).over span (foldByte options span)).doc
  else
    doc

end Highlight.Rust
