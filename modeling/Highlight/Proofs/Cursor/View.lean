import Highlight.Proofs.Cursor.Settled

/-!
Texts that share a part. What a pass does on whole lines depends on these lines only, wherever they
stand and whatever follows them.
-/

namespace Highlight

open LineIndex

/--
Where a cursor stops that goes up to `stop`: one past the text if it goes to the end of the text.
-/
def Document.cursorStop (doc : Document) (stop : Nat) : Nat :=
  if stop == doc.size then stop + 1 else stop

theorem Document.le_cursorStop (doc : Document) (stop : Nat) : stop ≤ doc.cursorStop stop := by
  rw [Document.cursorStop]
  split <;> omega

/--
A part of a text that stands in another text too, there `shift` line feeds further behind. It ends at
`limit`, where a line starts in both texts or, if `whole` is set, both texts end. Two passes, one over
each text, begin at `start`, stop at `stop` and `stop'`, and in the part they store the states and
levels of the lines from `first` up to `last`.
-/
structure View where
  shift : Nat
  start : Nat
  limit : Nat
  whole : Bool
  first : Nat
  last : Nat
  stop : Nat
  stop' : Nat
  encoding : Encoding
  options : Options

namespace View

/--
Where the cursor is after the last step of the pass.
-/
def reach (v : View) : Nat :=
  if v.whole then v.limit + 1 else v.limit

/--
The lines from `start` up to `limit`, seen in one and the same text by a pass that goes on up to `stop`
and by one that ends with these lines.
-/
def ofRange (doc : Document) (start limit stop : Nat) : View :=
  { shift := 0
    start
    limit
    whole := limit == doc.size
    first := doc.lineOf start
    last := if limit == doc.size then doc.lineCount else doc.lineOf limit
    stop := doc.cursorStop stop
    stop' := doc.cursorStop limit
    encoding := doc.encoding
    options := doc.options }

/--
The same front of two texts, up to a line start, seen by two passes that go on up to `stop` and `stop'`.
-/
def ofFront (doc doc' : Document) (front stop stop' : Nat) : View :=
  { shift := 0
    start := 0
    limit := front
    whole := false
    first := 0
    last := doc.lineOf front
    stop := doc.cursorStop stop
    stop' := doc'.cursorStop stop'
    encoding := doc.encoding
    options := doc.options }

/--
Two documents that share the part of a view.
-/
structure Shows (v : View) (doc doc' : Document) : Prop where
  wellFormed : doc.WellFormed
  wellFormed' : doc'.WellFormed
  encoding : doc.encoding = v.encoding
  encoding' : doc'.encoding = v.encoding
  options : doc.options = v.options
  options' : doc'.options = v.options
  lead : ∀ i : Nat, i < v.shift → doc'.text[i]? = some 0x0A
  text : ∀ i : Nat, i < v.limit → doc'.text[i + v.shift]? = doc.text[i]?
  ends : if v.whole then doc.size = v.limit ∧ doc'.size = v.limit + v.shift
    else 0 < v.limit ∧ startsLine doc.text v.limit = true ∧ startsLine doc'.text (v.limit + v.shift) = true
  start_le : v.start ≤ v.limit
  first : v.first = doc.lineOf v.start
  last : v.last = if v.whole then doc.lineCount else doc.lineOf v.limit
  reach_le : v.reach ≤ v.stop
  reach_le' : v.reach + v.shift ≤ v.stop'

variable {v : View} {doc doc' doc₁ doc₁' : Document}

theorem limit_le_reach (v : View) : v.limit ≤ v.reach := by
  unfold reach
  split <;> omega

theorem reach_of_whole (h : v.whole = true) : v.reach = v.limit + 1 := by
  rw [reach, if_pos h]

theorem reach_of_open (h : v.whole = false) : v.reach = v.limit := by
  rw [reach, h]
  rfl

theorem le_limit_of_lt_reach {pos : Nat} (h : pos < v.reach) : pos ≤ v.limit := by
  unfold reach at h
  split at h <;> omega

theorem lt_limit_or_whole {pos : Nat} (h : pos < v.reach) : pos < v.limit ∨ v.whole = true := by
  unfold reach at h
  split at h
  . next hwhole => exact .inr hwhole
  . exact .inl h

namespace Shows

theorem of_sameSource (h : v.Shows doc doc') (hdoc : doc.SameSource doc₁) (hdoc' : doc'.SameSource doc₁') :
    v.Shows doc₁ doc₁' where
  wellFormed := hdoc.wellFormed h.wellFormed
  wellFormed' := hdoc'.wellFormed h.wellFormed'
  encoding := hdoc.encoding.trans h.encoding
  encoding' := hdoc'.encoding.trans h.encoding'
  options := hdoc.options.trans h.options
  options' := hdoc'.options.trans h.options'
  lead := by
    rw [hdoc'.text]
    exact h.lead
  text := by
    rw [hdoc.text, hdoc'.text]
    exact h.text
  ends := by
    rw [hdoc.size, hdoc'.size, hdoc.text, hdoc'.text]
    exact h.ends
  start_le := h.start_le
  first := by rw [hdoc.lineOf, h.first]
  last := by rw [hdoc.lineOf, hdoc.lineCount, h.last]
  reach_le := h.reach_le
  reach_le' := h.reach_le'

theorem ofText (hdoc : doc.WellFormed) (hdoc' : doc'.WellFormed) (htext : doc'.text = doc.text)
    (hencoding : doc'.encoding = doc.encoding) (hoptions : doc'.options = doc.options) {start limit stop : Nat} (hlt : start < limit)
    (hlimit : IsBoundary doc.text limit) (hstop : limit ≤ stop) (hsize : stop ≤ doc.size) :
    (View.ofRange doc start limit stop).Shows doc doc' where
  wellFormed := hdoc
  wellFormed' := hdoc'
  encoding := rfl
  encoding' := hencoding
  options := rfl
  options' := hoptions
  lead := by
    intro i hi
    exact absurd hi (Nat.not_lt_zero i)
  text := by
    intro i _
    rw [htext]
    rfl
  ends := by
    rw [Document.size, Document.size, htext]
    simp only [View.ofRange, Nat.add_zero, beq_iff_eq]
    split
    . next h => exact ⟨h.symm, h.symm⟩
    . next h =>
      have hle := hlimit.le_size
      have := hlimit.startsLine (Nat.lt_of_le_of_ne hle h)
      exact ⟨by omega, this, this⟩
  start_le := Nat.le_of_lt hlt
  first := rfl
  last := rfl
  reach_le := by
    simp only [View.ofRange, reach, Document.cursorStop, beq_iff_eq]
    split <;> split <;> omega
  reach_le' := Nat.le_refl _

theorem ofRange (hdoc : doc.WellFormed) (hsame : doc.SameSource doc') {start limit stop : Nat} (hlt : start < limit)
    (hlimit : IsBoundary doc.text limit) (hstop : limit ≤ stop) (hsize : stop ≤ doc.size) :
    (View.ofRange doc start limit stop).Shows doc doc' :=
  .ofText hdoc (hsame.wellFormed hdoc) hsame.text hsame.encoding hsame.options hlt hlimit hstop hsize

theorem size_eq (h : v.Shows doc doc') (hwhole : v.whole = true) :
    doc.size = v.limit ∧ doc'.size = v.limit + v.shift := by
  have := h.ends
  rwa [hwhole, if_pos rfl] at this

theorem startsLine_limit (h : v.Shows doc doc') (hopen : v.whole = false) :
    0 < v.limit ∧ startsLine doc.text v.limit = true ∧ startsLine doc'.text (v.limit + v.shift) = true := by
  have := h.ends
  rw [hopen] at this
  exact this

theorem limit_le (h : v.Shows doc doc') : v.limit ≤ doc.size := by
  cases hwhole : v.whole with
  | true =>
    have := (h.size_eq hwhole).1
    omega
  | false => exact le_size_of_startsLine (h.startsLine_limit hwhole).2.1

theorem limit_le' (h : v.Shows doc doc') : v.limit + v.shift ≤ doc'.size := by
  cases hwhole : v.whole with
  | true =>
    have := (h.size_eq hwhole).2
    omega
  | false => exact le_size_of_startsLine (h.startsLine_limit hwhole).2.2

/--
The bytes of the part, and all others if the part is the whole text.
-/
theorem byteAt? (h : v.Shows doc doc') {pos : Nat} (hpos : pos < v.limit ∨ v.whole = true) :
    doc'.text[pos + v.shift]? = doc.text[pos]? := by
  by_cases hlt : pos < v.limit
  . exact h.text pos hlt
  . have hwhole : v.whole = true := by
      rcases hpos with hpos | hpos
      . exact absurd hpos hlt
      . exact hpos
    obtain ⟨hsize, hsize'⟩ := h.size_eq hwhole
    rw [Document.size] at hsize hsize'
    rw [Array.getElem?_eq_none (by omega), Array.getElem?_eq_none (by omega)]

theorem byteAt (h : v.Shows doc doc') {pos : Nat} (hpos : pos < v.limit ∨ v.whole = true) (fallback : UInt8) :
    doc'.byteAt (pos + v.shift) fallback = doc.byteAt pos fallback := by
  rw [Document.byteAt, Document.byteAt, h.byteAt? hpos]

theorem endsLine (h : v.Shows doc doc') {pos : Nat} (hpos : pos < v.limit) :
    endsLine doc'.text (pos + v.shift) = endsLine doc.text pos := by
  have hbyte := h.text pos hpos
  by_cases hnext : pos + 1 < v.limit ∨ v.whole = true
  . have := h.byteAt? hnext
    rw [LineIndex.endsLine, LineIndex.endsLine, hbyte, show pos + v.shift + 1 = pos + 1 + v.shift by omega, this]
  . have hopen : v.whole = false := by
      rw [Bool.eq_false_iff]
      intro hwhole
      exact hnext (.inr hwhole)
    have hlast : v.limit = pos + 1 := by
      have : ¬ pos + 1 < v.limit := fun h => hnext (.inl h)
      omega
    obtain ⟨_, hstart, hstart'⟩ := h.startsLine_limit hopen
    rw [hlast, startsLine_succ] at hstart
    rw [hlast, show pos + 1 + v.shift = pos + v.shift + 1 by omega, startsLine_succ] at hstart'
    rw [hstart, hstart']

theorem startsLine_lead (h : v.Shows doc doc') {pos : Nat} (hpos : pos ≤ v.shift) :
    startsLine doc'.text pos = true := by
  cases pos with
  | zero => exact startsLine_zero
  | succ pos =>
    rw [startsLine_succ, LineIndex.endsLine, h.lead pos (by omega)]
    rfl

theorem startsLine (h : v.Shows doc doc') {pos : Nat} (hpos : pos ≤ v.limit) :
    startsLine doc'.text (pos + v.shift) = startsLine doc.text pos := by
  cases pos with
  | zero =>
    rw [startsLine_zero]
    exact h.startsLine_lead (by omega)
  | succ pos =>
    rw [show pos + 1 + v.shift = pos + v.shift + 1 by omega, startsLine_succ, startsLine_succ,
      h.endsLine (by omega)]

theorem breaksBefore_lead (h : v.Shows doc doc') {pos : Nat} (hpos : pos ≤ v.shift) :
    breaksBefore doc'.text pos = pos := by
  induction pos with
  | zero => exact breaksBefore_zero
  | succ pos ih => rw [breaksBefore_succ, h.startsLine_lead hpos, if_pos rfl, ih (by omega)]

theorem lineOf (h : v.Shows doc doc') {pos : Nat} (hpos : pos ≤ v.limit) :
    doc'.lineOf (pos + v.shift) = doc.lineOf pos + v.shift := by
  rw [h.wellFormed.lineOf_eq, h.wellFormed'.lineOf_eq]
  induction pos with
  | zero => rw [Nat.zero_add, breaksBefore_zero, h.breaksBefore_lead (Nat.le_refl _), Nat.zero_add]
  | succ pos ih =>
    have := h.startsLine hpos
    rw [show pos + 1 + v.shift = pos + v.shift + 1 by omega] at this ⊢
    rw [breaksBefore_succ, breaksBefore_succ, this, ih (by omega)]
    omega

theorem decodeAt (h : v.Shows doc doc') {pos : Nat} (hpos : pos < v.limit ∨ v.whole = true) :
    doc'.decodeAt (pos + v.shift) = doc.decodeAt pos := by
  rw [Document.decodeAt, Document.decodeAt, h.encoding, h.encoding']
  apply Encoding.decodeAt_congr
  intro j hj hbytes
  apply h.byteAt?
  cases hwhole : v.whole with
  | true => exact .inr rfl
  | false =>
    left
    apply Decidable.byContradiction
    intro hover
    -- The last byte of the part ends a line, so no character goes on behind it.
    have hpos : pos < v.limit := by simpa [hwhole] using hpos
    obtain ⟨hlimit, hstart, _⟩ := h.startsLine_limit hwhole
    obtain ⟨b, hb, hbreak⟩ := LineIndex.ascii_of_endsLine (endsLine_of_startsLine hstart hlimit)
    have := hbytes (v.limit - 1) (by omega) (by omega) b hb
    omega

theorem first_le (h : v.Shows doc doc') {pos : Nat} (hpos : v.start ≤ pos) : v.first ≤ doc.lineOf pos := by
  rw [h.first, h.wellFormed.lineOf_eq, h.wellFormed.lineOf_eq]
  exact breaksBefore_mono hpos

theorem lineOf_lt_last (h : v.Shows doc doc') {pos : Nat} (hpos : pos < v.reach) : doc.lineOf pos < v.last := by
  rw [h.last]
  cases hwhole : v.whole with
  | true => exact h.wellFormed.lineOf_lt pos
  | false =>
    rw [reach_of_open hwhole] at hpos
    rw [h.wellFormed.lineOf_eq, h.wellFormed.lineOf_eq]
    exact breaksBefore_lt hpos (h.startsLine_limit hwhole).2.1

end Shows

end View

end Highlight
