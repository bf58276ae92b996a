import Highlight.Proofs.Colouring
import Highlight.Session

/-!
Colouring a text in parts. A session widens each part to whole lines, so that parts overlap in the lines
that are cut in two; a language whose passes can be interrupted there does not show it.
-/

namespace Highlight

open LineIndex

/--
A session that colours whole lines the way `colour` does.
-/
def Session.Colours (session : Session) (colour : Document → Nat → Nat → Document) : Prop :=
  ∀ {doc span start stop}, doc.WellFormed → startsLine doc.text start = true → start < stop → IsBoundary doc.text stop →
    doc.wholeLines span = doc.spanOf start stop → session.lexer.colour session.keywords span doc = colour doc start stop

/--
A pass that can go on at those line starts of a text that are `resumable`, whether the lines behind are coloured
already or not.
-/
structure Continues (colour : Document → Nat → Nat → Document) (doc : Document) (resumable : Nat → Prop) : Prop where
  sameSource : ∀ {stop}, 0 < stop → IsBoundary doc.text stop → doc.SameSource (colour doc 0 stop)
  goOn : ∀ {start mid stop}, startsLine doc.text start = true → resumable start → start ≤ mid → 0 < mid →
    IsBoundary doc.text mid → mid ≤ stop → start < stop → IsBoundary doc.text stop →
    colour (colour doc 0 mid) start stop = colour doc 0 stop

section Parts

variable {session : Session} {colour : Document → Nat → Nat → Document} {doc : Document} {resumable : Nat → Prop}

theorem Session.Colours.colour_of_lt (h : session.Colours colour) (hdoc : doc.WellFormed) {start stop : Nat}
    (hlt : start < min stop doc.size) :
    session.colour doc start stop = colour doc (lineFloor doc.text start) (lineCeil doc.text (min stop doc.size)) := by
  obtain ⟨span, hspan, hwhole⟩ := hdoc.wholeLines_linesSpan? hlt
  have hmin : min stop doc.size ≤ doc.text.size := Nat.min_le_right _ _
  have hceil := le_lineCeil hmin
  have hfloor := lineFloor_le doc.text start
  rw [Session.colour, Session.run, hspan]
  exact h hdoc (startsLine_lineFloor _ start) (by omega) (isBoundary_lineCeil hmin) hwhole

theorem Session.Colours.colour_eq (h : session.Colours colour) (hdoc : doc.WellFormed) {stop : Nat} (hpos : 0 < stop)
    (hstop : IsBoundary doc.text stop) : session.colour doc 0 stop = colour doc 0 stop := by
  have hle : stop ≤ doc.size := hstop.le_size
  rw [Session.Colours.colour_of_lt h hdoc (by omega), Nat.min_eq_left hle, lineCeil_of_isBoundary hstop,
    lineFloor_of_startsLine startsLine_zero]

theorem Session.colour_of_le {start stop : Nat} (hle : min stop doc.size ≤ start) : session.colour doc start stop = doc := by
  rw [Session.colour, Session.run, Document.linesSpan?]
  simp only
  rw [if_neg (by omega)]

namespace Continues

/--
The document behind a pass over the whole lines up to `pos`.
-/
def through (colour : Document → Nat → Nat → Document) (doc : Document) (pos : Nat) : Document :=
  if pos = 0 then doc else colour doc 0 (lineCeil doc.text pos)

variable (h : Continues colour doc resumable)
include h

theorem sameSource_through {pos : Nat} (hpos : pos ≤ doc.size) : doc.SameSource (through colour doc pos) := by
  unfold through
  split
  . exact .refl doc
  . have hpos : pos ≤ doc.text.size := hpos
    have hceil := le_lineCeil hpos
    exact h.sameSource (by omega) (isBoundary_lineCeil hpos)

/--
Going on from `pos`, which can be anywhere in a line, up to `stop`.
-/
theorem colour_through {pos stop : Nat} (hresumable : resumable (lineFloor doc.text pos)) (hlt : pos < stop)
    (hstop : stop ≤ doc.size) :
    colour (through colour doc pos) (lineFloor doc.text pos) (lineCeil doc.text stop) = through colour doc stop := by
  have hfloor := lineFloor_le doc.text pos
  have hstop : stop ≤ doc.text.size := hstop
  have hpos : pos ≤ doc.text.size := by omega
  have hceil := le_lineCeil hstop
  have hmid := le_lineCeil hpos
  have hmono := lineCeil_mono (Nat.le_of_lt hlt) hstop
  rw [through, through, if_neg (show stop ≠ 0 by omega)]
  by_cases hzero : pos = 0
  . subst hzero
    rw [if_pos rfl, show lineFloor doc.text 0 = 0 by omega]
  . rw [if_neg hzero]
    exact h.goOn (startsLine_lineFloor doc.text pos) hresumable (by omega) (by omega) (isBoundary_lineCeil hpos) hmono (by omega)
      (isBoundary_lineCeil hstop)

variable (hcolours : session.Colours colour) (hdoc : doc.WellFormed)
include hcolours hdoc

theorem colour_part {pos stop : Nat} (hresumable : pos < doc.size → resumable (lineFloor doc.text pos)) (hle : pos ≤ stop) :
    session.colour (through colour doc (min pos doc.size)) pos stop = through colour doc (min stop doc.size) := by
  have hsame := h.sameSource_through (Nat.min_le_right pos doc.size)
  by_cases hlt : pos < min stop doc.size
  . rw [hcolours.colour_of_lt (hsame.wellFormed hdoc) (by rw [hsame.size]; exact hlt), hsame.size, hsame.text,
      show min pos doc.size = pos by omega]
    exact h.colour_through (hresumable (by omega)) hlt (Nat.min_le_right _ _)
  . rw [Session.colour_of_le (by rw [hsame.size]; omega), show min pos doc.size = min stop doc.size by omega]

theorem inParts_through {cuts : List Nat} {pos : Nat} (hsorted : (pos :: cuts).Pairwise (· ≤ ·))
    (hresumable : ∀ cut ∈ pos :: cuts, cut < doc.size → resumable (lineFloor doc.text cut)) :
    Session.inParts session.colour (through colour doc (min pos doc.size)) pos cuts = through colour doc doc.size := by
  induction cuts generalizing pos with
  | nil =>
    have hsame := h.sameSource_through (Nat.min_le_right pos doc.size)
    rw [Session.inParts, hsame.size]
    by_cases hle : pos ≤ doc.size
    . rw [h.colour_part hcolours hdoc (hresumable pos List.mem_cons_self) hle, Nat.min_self]
    . rw [Session.colour_of_le (by rw [hsame.size]; omega), Nat.min_eq_right (by omega)]
  | cons cut cuts ih =>
    rw [List.pairwise_cons] at hsorted
    rw [Session.inParts, h.colour_part hcolours hdoc (hresumable pos List.mem_cons_self) (hsorted.1 cut List.mem_cons_self)]
    exact ih hsorted.2 (fun cut hcut => hresumable cut (List.mem_cons_of_mem pos hcut))

/--
Wherever a text is cut, colouring its parts one after the other is colouring all of it, if the pass can go on at
the start of each line that is cut.
-/
theorem colourInParts_eq (hzero : resumable 0) {cuts : List Nat} (hsorted : cuts.Pairwise (· ≤ ·))
    (hresumable : ∀ cut ∈ cuts, cut < doc.size → resumable (lineFloor doc.text cut)) :
    session.colourInParts doc cuts = session.colour doc 0 doc.size := by
  have hfirst : 0 < doc.size → resumable (lineFloor doc.text 0) := by
    intro _
    rw [lineFloor_of_startsLine startsLine_zero]
    exact hzero
  have hparts := h.inParts_through hcolours hdoc (List.pairwise_cons.mpr ⟨fun cut _ => Nat.zero_le cut, hsorted⟩)
    (List.forall_mem_cons.mpr ⟨hfirst, hresumable⟩)
  have hwhole := h.colour_part hcolours hdoc hfirst (Nat.zero_le doc.size)
  rw [Nat.zero_min, through, if_pos rfl] at hparts hwhole
  rw [Session.colourInParts, hparts, hwhole, Nat.min_self]

end Continues

end Parts

namespace Colouring

variable {σ : Type} {m : Colouring σ} {session : Session} {doc : Document}

/--
A session that colours the way `m` does.
-/
def Drives (m : Colouring σ) (session : Session) : Prop :=
  session.Colours m.colour

theorem Drives.colour_of_lt (h : m.Drives session) (hdoc : doc.WellFormed) {start stop : Nat}
    (hlt : start < min stop doc.size) :
    session.colour doc start stop = m.colour doc (lineFloor doc.text start) (lineCeil doc.text (min stop doc.size)) :=
  Session.Colours.colour_of_lt h hdoc hlt

theorem Drives.colour_eq (h : m.Drives session) (hdoc : doc.WellFormed) {stop : Nat} (hpos : 0 < stop)
    (hstop : IsBoundary doc.text stop) : session.colour doc 0 stop = m.colour doc 0 stop :=
  Session.Colours.colour_eq h hdoc hpos hstop

variable (h : m.Lawful) (hdoc : doc.WellFormed) (hgood : 0 < doc.size → m.Good (m.start doc 0 doc.size))
include h hdoc hgood

theorem good_upTo {stop : Nat} (hpos : 0 < stop) (hstop : IsBoundary doc.text stop) : m.Good (m.start doc 0 stop) := by
  have hle := hstop.le_size
  exact h.good_part hdoc startsLine_zero hpos hstop hle (.inr rfl) (hgood (by rw [Document.size]; omega))

/--
A pass that can be interrupted at every line start.
-/
theorem continues : Continues m.colour doc (fun _ => True) where
  sameSource := fun hpos hstop => h.sameSource_colour hdoc startsLine_zero hpos hstop (good_upTo h hdoc hgood hpos hstop)
  goOn := by
    intro start mid stop hstart _ hle hpos hmid hle' hlt hstop
    have hgood₁ := good_upTo h hdoc hgood (by omega) hstop
    by_cases hfirst : start = 0
    . subst hfirst
      exact h.colour_extend hdoc startsLine_zero hpos hmid hle' hstop hgood₁
    . obtain ⟨hsplit, hgood₂⟩ := h.colour_split hdoc startsLine_zero (by omega) hstart hlt hstop hgood₁
      by_cases heq : start = mid
      . rw [← heq, ← hsplit]
      . obtain ⟨hsplit', _⟩ := h.colour_split hdoc startsLine_zero (by omega) hstart (by omega) hmid
          (good_upTo h hdoc hgood (by omega) hmid)
        have hsame := h.sameSource_colour hdoc startsLine_zero (by omega) (.inl hstart)
          (good_upTo h hdoc hgood (by omega) (.inl hstart))
        rw [hsplit', hsplit]
        exact h.colour_extend (hsame.wellFormed hdoc) (by rw [hsame.text]; exact hstart) (by omega)
          (by rw [IsBoundary, hsame.text]; exact hmid) hle' (by rw [IsBoundary, hsame.text]; exact hstop) hgood₂

end Colouring

/--
Wherever a text is cut, colouring its parts one after the other is colouring all of it.
-/
theorem Colouring.colourInParts_eq {σ : Type} {m : Colouring σ} {session : Session} {doc : Document} (h : m.Lawful)
    (hdrives : m.Drives session) (hdoc : doc.WellFormed) (hgood : 0 < doc.size → m.Good (m.start doc 0 doc.size)) {cuts : List Nat}
    (hsorted : cuts.Pairwise (· ≤ ·)) : session.colourInParts doc cuts = session.colour doc 0 doc.size :=
  (continues h hdoc hgood).colourInParts_eq hdrives hdoc trivial hsorted (fun _ _ _ => trivial)

end Highlight
