import Highlight.Proofs.Colouring
import Highlight.Proofs.Cursor.Moves
import Highlight.Session

/-!
Passes over all of a text, seen from one of their scans: its cursor is on the text, and what its pen has painted
stays.
-/

namespace Highlight

open LineIndex

/--
Colouring all of a text is one pass over it.
-/
theorem Session.colour_whole (session : Session) {doc : Document} (hdoc : doc.WellFormed) (hsize : 0 < doc.size) :
    session.colour doc 0 doc.size = session.lexer.colour session.keywords ⟨0, doc.size, 0⟩ doc := by
  rw [colour, run, hdoc.linesSpan?_whole hsize]

namespace Pen

/--
The pen is behind the byte `i`, to which it has given the style `x`.
-/
structure Painted (i : Nat) (x : Style) (pen : Pen) : Prop where
  lt_segment : i < pen.segment
  style : pen.doc.styleAt i = x

variable {i : Nat} {x : Style} {pen : Pen}

theorem Painted.colourTo (h : pen.Painted i x) (pos : Nat) (style : Style) : (pen.colourTo pos style).Painted i x where
  lt_segment := by
    rw [segment_colourTo]
    exact Nat.lt_of_lt_of_le h.lt_segment (Nat.le_max_left _ _)
  style := (styleAt_colourTo_of_lt h.lt_segment _ _).trans h.style

theorem painted_colourTo (hdoc : pen.doc.WellFormed) {pos : Nat} (hle : pen.segment ≤ i) (hlt : i < pos) (hin : i < pen.doc.size)
    (style : Style) : (pen.colourTo pos style).Painted i style where
  lt_segment := by
    rw [segment_colourTo]
    omega
  style := styleAt_colourTo hdoc hle hlt hin style

end Pen

theorem View.closed_painted {v : View} (hshift : v.shift = 0) (loose : Style → Bool) (i : Nat) (x : Style) :
    v.Closed loose (fun _ pen pen' => pen' = pen ∧ pen.Painted i x) where
  colourTo := by
    rintro style pen _ style' pos _ _ _ ⟨rfl, h⟩
    rw [hshift]
    exact ⟨rfl, h.colourTo pos style⟩
  restyle := fun _ _ h => h
  segment := by
    rintro style pen _ _ ⟨rfl, _⟩
    rw [hshift]
    rfl
  setLineState := by
    rintro style pen _ line state _ _ _ ⟨rfl, h⟩
    rw [hshift]
    exact ⟨rfl, h.lt_segment, h.style⟩
  setLevel := by
    rintro style pen _ line level _ _ _ ⟨rfl, h⟩
    rw [hshift]
    exact ⟨rfl, h.lt_segment, h.style⟩

namespace Colouring

variable {σ : Type} {m : Colouring σ} {s t : σ} {v : View} {doc : Document}

/--
A pass leaves a byte that it has painted as it is.
-/
theorem LawfulSteps.styleAt_finish {i : Nat} {x : Style} (h : m.LawfulSteps) (hgood : m.Good s) (hshift : v.shift = 0)
    (hstop : v.stop' = v.reach) (halike : m.alike v (fun _ pen pen' => pen' = pen ∧ pen.Painted i x) s s) (hends : m.Ends s t) :
    (m.finish t).styleAt i = x := by
  have hkept := hends.1.invariant (fun u => m.alike v (fun _ pen pen' => pen' = pen ∧ pen.Painted i x) u u ∧ m.Good u) (by
    rintro u hmore ⟨hu, hgood⟩
    have hin := ((h.cursor_alike hu).more'_iff (by omega)).mp hmore
    exact ⟨h.alike_step (View.closed_painted hshift _ i x) hgood.storable_self hin hu, h.good_step hmore hgood⟩) ⟨halike, hgood⟩
  have hpen := (h.cursor_alike hkept.1).pen
  rw [m.finish_eq]
  exact (hpen.2.colourTo _ _).style

namespace LawfulPass

/--
The scans of a pass over all of a text are alike to themselves, with a pen that has written into the text only.
-/
theorem alike_whole (h : m.LawfulPass) (hdoc : doc.WellFormed) (hsize : 0 < doc.size) (hgood : m.Good (m.start doc 0 doc.size))
    (hrun : Iterates m.more m.step (m.start doc 0 doc.size) s) :
    m.alike (.ofRange doc 0 doc.size doc.size) (Pen.Same (.ofRange doc 0 doc.size doc.size) doc) s s ∧ m.Good s := by
  have hstart := h.alike_part hdoc startsLine_zero hsize (.inr rfl) (Nat.le_refl doc.size) (.inr rfl) hgood
  apply hrun.invariant (fun u => m.alike _ (Pen.Same (.ofRange doc 0 doc.size doc.size) doc) u u ∧ m.Good u) _ ⟨hstart, hgood⟩
  rintro u hmore ⟨hu, hgood⟩
  have hin := ((h.cursor_alike hu).more'_iff rfl).mp hmore
  exact ⟨h.alike_step (View.closed_same rfl) hgood.storable_self hin hu, h.good_step hmore hgood⟩

theorem onText (h : m.LawfulPass) (hdoc : doc.WellFormed) (hsize : 0 < doc.size) (hgood : m.Good (m.start doc 0 doc.size))
    (hrun : Iterates m.more m.step (m.start doc 0 doc.size) s) : (m.cursor s).OnText doc := by
  have hcursor := h.cursor_alike (h.alike_whole hdoc hsize hgood hrun).1
  have hreach : (View.ofRange doc 0 doc.size doc.size).reach = doc.size + 1 :=
    View.reach_of_whole (beq_self_eq_true doc.size)
  have hstop := hcursor.stop.trans (stop_ofRange doc 0 doc.size)
  have hle := hcursor.le_reach
  rw [hreach] at hstop hle
  exact ⟨hcursor.pen.2.sameSource, hcursor.settled, hstop, hle⟩

end LawfulPass

end Colouring

end Highlight
