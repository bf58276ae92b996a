import Highlight.Document.Basic

/-!
Colouring a document segment by segment.

A pen stands where the next segment starts. Colouring up to a position paints that segment and moves
the pen there, so that no byte is painted twice in one pass.
-/

namespace Highlight

/--
A document being coloured; all bytes of the pass before `segment` are done.
-/
structure Pen where
  doc : Document
  segment : Nat
  deriving DecidableEq, Repr

namespace Pen

/--
Give the segment up to `stop`, or up to the end of the text, a style. An empty segment changes
nothing.
-/
def colourTo (pen : Pen) (stop : Nat) (style : Style) : Pen :=
  let stop := min stop pen.doc.size
  if pen.segment < stop then
    ⟨pen.doc.setStyles pen.segment stop style, stop⟩
  else
    pen

def setLineState (pen : Pen) (line : Nat) (state : LineState) : Pen :=
  { pen with doc := pen.doc.setLineState line state }

def setLevel (pen : Pen) (line : Nat) (level : Level) : Pen :=
  { pen with doc := pen.doc.setLevel line level }

end Pen

end Highlight
