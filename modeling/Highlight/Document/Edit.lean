import Highlight.Document.Basic

/-!
Edits of a document.

An edit keeps what is known about the lines it does not touch, moves it along with them, and takes
back the promise that styles are valid from the start of the edited line on.
-/

namespace Highlight

/--
Replace the entries from `start` up to but not including `stop` by `new`.
-/
def splice {α : Type} (entries : Array α) (start stop : Nat) (new : Array α) : Array α :=
  entries.extract 0 start ++ new ++ entries.extract stop entries.size

theorem size_splice {α : Type} (entries : Array α) (start stop : Nat) (new : Array α)
    (hstart : start ≤ stop) (hstop : stop ≤ entries.size) :
    (splice entries start stop new).size = entries.size - (stop - start) + new.size := by
  simp only [splice, Array.size_append, Array.size_extract]
  omega

namespace Document

/--
Styles are not valid from the start of `line` on.
-/
def invalidateFrom (doc : Document) (line : Nat) : Document :=
  { doc with endStyled := min doc.endStyled (doc.lineStart line) }

/--
Insert bytes at `pos`, or at the end if `pos` is beyond it. New lines come right after the line of
`pos`, with its level and no state.
-/
def insert (doc : Document) (pos : Nat) (bytes : Array UInt8) : Document :=
  let pos := min pos doc.size
  let line := doc.lineOf pos
  let text := splice doc.text pos pos bytes
  let lines := LineIndex.ofText text
  let added := lines.count - doc.lines.count
  let below := min (line + 1) doc.lineStates.size
  { doc with
    text
    styles := splice doc.styles pos pos (.replicate bytes.size 0)
    lines
    lineStates := splice doc.lineStates below below (.replicate added 0)
    levels := splice doc.levels below below (.replicate added (doc.level line)) }.invalidateFrom line

/--
Delete the bytes from `start` up to but not including `stop`. The lines that go are those right
after the line of `start`.
-/
def delete (doc : Document) (start stop : Nat) : Document :=
  let stop := min stop doc.size
  let start := min start stop
  if start == stop then
    doc
  else
    let line := doc.lineOf start
    let text := splice doc.text start stop #[]
    let lines := LineIndex.ofText text
    let removed := doc.lines.count - lines.count
    let first := min (line + 1) doc.lineStates.size
    let last := min (first + removed) doc.lineStates.size
    { doc with
      text
      styles := splice doc.styles start stop #[]
      lines
      lineStates := splice doc.lineStates first last #[]
      levels := splice doc.levels first last #[] }.invalidateFrom line

/--
Replace the whole text. Only the options and the encoding stay.
-/
def setText (doc : Document) (text : Array UInt8) : Document :=
  { ofText text with options := doc.options, encoding := doc.encoding }

end Document

end Highlight
