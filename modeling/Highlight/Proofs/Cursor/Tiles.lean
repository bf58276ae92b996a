import Highlight.Proofs.Cursor.Walk
import Highlight.Proofs.Cursor.PenRelation

/-!
What a client of a cursor writes. Each token that it ends paints one tile, and the tiles lie behind each other without
gaps: no byte is painted twice, and the bytes that the cursor has gone by are all painted. A token that ends at the
cursor ends between two characters.
-/

namespace Highlight

open LineIndex

/--
The places between the characters of a text that is read from its front.
-/
inductive CharBoundary (encoding : Encoding) (text : Array UInt8) : Nat → Prop where
  | front : CharBoundary encoding text 0
  | behind {pos : Nat} : CharBoundary encoding text pos → pos < text.size
    → CharBoundary encoding text (pos + (encoding.decodeAt text pos).2)

namespace CharBoundary

variable {encoding : Encoding} {text : Array UInt8} {pos q : Nat}

theorem le_size (h : CharBoundary encoding text pos) : pos ≤ text.size := by
  cases h with
  | front => apply Nat.zero_le
  | behind _ hlt => exact encoding.decodeAt_le_size hlt

/--
Reading on from one of these places comes by each place that no character goes on over.
-/
theorem of_le (h : CharBoundary encoding text pos) (hle : pos ≤ q) (hq : q ≤ text.size)
    (hover : ∀ p, p < q → p + (encoding.decodeAt text p).2 ≤ q) : CharBoundary encoding text q := by
  induction hk : q - pos using Nat.strongRecOn generalizing pos with
  | ind k ih =>
    rcases Nat.eq_or_lt_of_le hle with rfl | hlt
    . exact h
    . have hwidth := encoding.decodeAt_width_pos text pos
      have hnext := hover pos hlt
      exact ih _ (by omega) (h.behind (by omega)) hnext rfl

theorem of_startsLine (hq : startsLine text q = true) : CharBoundary encoding text q := by
  apply front.of_le (Nat.zero_le q) (le_size_of_startsLine hq)
  intro p hp
  exact encoding.decodeAt_le_of_startsLine hq hp

theorem size (encoding : Encoding) (text : Array UInt8) : CharBoundary encoding text text.size := by
  apply front.of_le (Nat.zero_le _) (Nat.le_refl _)
  intro p hp
  exact encoding.decodeAt_le_size hp

end CharBoundary

/--
A part of a text that has been painted at once. `atCursor` says that it was ended where the cursor stood, and not at a
place of the client's choice.
-/
structure Tile where
  start : Nat
  stop : Nat
  style : Style
  atCursor : Bool
  deriving DecidableEq, Repr

namespace Tile

def covers (tile : Tile) (i : Nat) : Bool :=
  tile.start ≤ i && i < tile.stop

def paint (doc : Document) (tile : Tile) : Document :=
  doc.setStyles tile.start tile.stop tile.style

/--
Tiles that have bytes and lie behind each other, from `start` up to `stop`.
-/
def Consecutive (start stop : Nat) (tiles : List Tile) : Prop :=
  match tiles with
  | [] => start = stop
  | tile :: tiles => tile.start = start ∧ start < tile.stop ∧ Consecutive tile.stop stop tiles

variable {start mid stop : Nat} {tiles tiles' : List Tile} {doc : Document}

theorem Consecutive.le (h : Consecutive start stop tiles) : start ≤ stop := by
  induction tiles generalizing start with
  | nil => exact Nat.le_of_eq h
  | cons tile tiles ih => exact Nat.le_trans (Nat.le_of_lt h.2.1) (ih h.2.2)

theorem Consecutive.append (h : Consecutive start mid tiles) (h' : Consecutive mid stop tiles') :
    Consecutive start stop (tiles ++ tiles') := by
  induction tiles generalizing start with
  | nil =>
    have hmid : start = mid := h
    rwa [hmid]
  | cons tile tiles ih => exact ⟨h.1, h.2.1, ih h.2.2⟩

/--
Each byte of the range lies in one of the tiles, and no other byte lies in one.
-/
theorem Consecutive.countP_covers (h : Consecutive start stop tiles) (i : Nat) :
    tiles.countP (·.covers i) = if start ≤ i ∧ i < stop then 1 else 0 := by
  induction tiles generalizing start with
  | nil =>
    have hempty : start = stop := h
    rw [List.countP_nil, if_neg (by omega)]
  | cons tile tiles ih =>
    obtain ⟨hstart, hlt, hrest⟩ := h
    have hle := hrest.le
    rw [List.countP_cons, ih hrest, covers, hstart]
    simp only [Bool.and_eq_true, decide_eq_true_eq]
    split <;> split <;> split <;> omega

theorem foldl_paint (doc : Document) (tiles : List Tile) :
    tiles.foldl paint doc = { doc with styles := (tiles.foldl paint doc).styles } := by
  induction tiles generalizing doc with
  | nil => rfl
  | cons tile tiles ih => exact ih (tile.paint doc)

theorem Consecutive.getElem?_foldl_paint_of_not (h : Consecutive start stop tiles) (doc : Document) {i : Nat}
    (hi : i < start ∨ stop ≤ i) : (tiles.foldl paint doc).styles[i]? = doc.styles[i]? := by
  induction tiles generalizing start doc with
  | nil => rfl
  | cons tile tiles ih =>
    obtain ⟨hstart, hlt, hrest⟩ := h
    have hle := hrest.le
    rw [List.foldl_cons, ih hrest _ (by omega), paint, Document.getElem?_setStyles, if_neg (by omega)]

theorem Consecutive.getElem?_foldl_paint_of_covers (h : Consecutive start stop tiles) (hstop : stop ≤ doc.styles.size)
    {tile : Tile} (hmem : tile ∈ tiles) {i : Nat} (hi : tile.covers i = true) :
    (tiles.foldl paint doc).styles[i]? = some tile.style := by
  induction tiles generalizing start doc with
  | nil => cases hmem
  | cons first tiles ih =>
    obtain ⟨hstart, hlt, hrest⟩ := h
    have hsize : (first.paint doc).styles.size = doc.styles.size := Document.size_paint _ _ _ _
    rcases List.mem_cons.mp hmem with rfl | hmem
    -- The tiles behind the one that covers the byte leave it alone.
    . simp only [covers, Bool.and_eq_true, decide_eq_true_eq] at hi
      have hle := hrest.le
      rw [List.foldl_cons, hrest.getElem?_foldl_paint_of_not _ (.inl hi.2), paint, Document.getElem?_setStyles, if_pos hi,
        Array.getElem?_eq_getElem (show i < doc.styles.size by omega), Option.map_some]
    . exact ih hrest (by rwa [hsize]) hmem

end Tile

/--
The tile that colouring up to `stop` paints, if there is one.
-/
def Pen.tiles (pen : Pen) (stop : Nat) (style : Style) (atCursor : Bool) : List Tile :=
  if pen.segment < min stop pen.doc.size then [⟨pen.segment, min stop pen.doc.size, style, atCursor⟩] else []

namespace Pen

theorem consecutive_tiles (pen : Pen) (stop : Nat) (style : Style) (atCursor : Bool) :
    Tile.Consecutive pen.segment (pen.colourTo stop style).segment (pen.tiles stop style atCursor) := by
  rw [segment_colourTo, tiles]
  split
  . next hlt => exact ⟨rfl, hlt, by show min stop pen.doc.size = _; omega⟩
  . next hge => exact (Nat.max_eq_left (Nat.le_of_not_lt hge)).symm

theorem doc_colourTo (pen : Pen) (stop : Nat) (style : Style) (atCursor : Bool) :
    (pen.colourTo stop style).doc = (pen.tiles stop style atCursor).foldl Tile.paint pen.doc := by
  unfold colourTo tiles
  dsimp only
  split <;> rfl

theorem stop_eq_of_mem_tiles {pen : Pen} {stop : Nat} {style : Style} {atCursor : Bool} {tile : Tile}
    (h : tile ∈ pen.tiles stop style atCursor) : tile.stop = min stop pen.doc.size ∧ tile.atCursor = atCursor := by
  rw [tiles] at h
  split at h
  . rw [List.mem_singleton] at h
    subst h
    exact ⟨rfl, rfl⟩
  . cases h

end Pen

/--
What can be done with a cursor. Its client may also colour up to any place with a style of its own.
-/
inductive Move where
  | forward
  | forwardBy (count : Nat)
  | setState (state : Style)
  | changeState (state : Style)
  | forwardSetState (state : Style)
  | colourTo (stop : Nat) (style : Style)
  deriving DecidableEq, Repr

namespace Move

def apply (move : Move) (c : Cursor) : Cursor :=
  match move with
  | forward => c.forward
  | forwardBy count => c.forwardBy count
  | setState state => c.setState state
  | changeState state => c.changeState state
  | forwardSetState state => c.forwardSetState state
  | colourTo stop style => { c with pen := c.pen.colourTo stop style }

/--
The tile that a move paints: the open token gets the style that the cursor has for it when it ends.
-/
def tiles (move : Move) (c : Cursor) : List Tile :=
  match move with
  | setState _ => c.pen.tiles c.pos c.state true
  | forwardSetState _ => c.forward.pen.tiles c.forward.pos c.forward.state true
  | colourTo stop style => c.pen.tiles stop style false
  | forward | forwardBy _ | changeState _ => []

end Move

/--
A client of a cursor: it makes moves and looks at the cursor in between, and has the last token ended. All that it asks
of the cursor is read off the cursor as it is, so what it does next is any function of it.
-/
inductive Client where
  | complete
  | make (move : Move) (rest : Client)
  | look (rest : Cursor → Client)

namespace Client

/--
The cursor after the moves, whose last token is still open.
-/
def finish (client : Client) (c : Cursor) : Cursor :=
  match client with
  | complete => c
  | make move rest => rest.finish (move.apply c)
  | look rest => (rest c).finish c

/--
The tiles that are painted one after the other.
-/
def tiles (client : Client) (c : Cursor) : List Tile :=
  match client with
  | complete => c.pen.tiles c.pos c.state true
  | make move rest => move.tiles c ++ rest.tiles (move.apply c)
  | look rest => (rest c).tiles c

end Client

namespace Cursor

theorem forwardBy_pen (c : Cursor) (count : Nat) : (c.forwardBy count).pen = c.pen := by
  induction count with
  | zero => rfl
  | succ count ih => rw [forwardBy_succ, forward_pen, ih]

end Cursor

namespace Move

theorem consecutive_tiles (move : Move) (c : Cursor) :
    Tile.Consecutive c.pen.segment (move.apply c).pen.segment (move.tiles c) := by
  cases move with
  | forward => exact congrArg Pen.segment c.forward_pen.symm
  | forwardBy count => exact congrArg Pen.segment (c.forwardBy_pen count).symm
  | setState state => exact c.pen.consecutive_tiles c.pos c.state true
  | changeState state => exact rfl
  | forwardSetState state =>
    rw [← c.forward_pen]
    exact c.forward.pen.consecutive_tiles c.forward.pos c.forward.state true
  | colourTo stop style => exact c.pen.consecutive_tiles stop style false

theorem doc_apply (move : Move) (c : Cursor) : (move.apply c).doc = (move.tiles c).foldl Tile.paint c.doc := by
  cases move with
  | forward => exact c.doc_forward
  | forwardBy count => exact c.doc_forwardBy count
  | setState state => exact c.pen.doc_colourTo c.pos c.state true
  | changeState state => rfl
  | forwardSetState state =>
    rw [← c.doc_forward]
    exact c.forward.pen.doc_colourTo c.forward.pos c.forward.state true
  | colourTo stop style => exact c.pen.doc_colourTo stop style false

end Move

namespace Client

theorem consecutive_tiles (client : Client) (c : Cursor) :
    Tile.Consecutive c.pen.segment (client.finish c).commit.pen.segment (client.tiles c) := by
  induction client generalizing c with
  | complete => exact c.pen.consecutive_tiles c.pos c.state true
  | make move rest ih => exact (move.consecutive_tiles c).append (ih (move.apply c))
  | look rest ih => exact ih c c

theorem complete_finish (client : Client) (c : Cursor) :
    (client.finish c).complete = (client.tiles c).foldl Tile.paint c.doc := by
  induction client generalizing c with
  | complete => exact c.pen.doc_colourTo c.pos c.state true
  | make move rest ih =>
    rw [tiles, List.foldl_append, ← Move.doc_apply]
    exact ih (move.apply c)
  | look rest ih => exact ih c c

end Client

/--
A cursor that goes by whole characters. Behind the text there is one more place, and past its span it stands still.
-/
structure Cursor.Steady (doc : Document) (c : Cursor) : Prop where
  source : doc.SameSource c.doc
  stop_le : c.stop ≤ doc.size + 1
  pos : CharBoundary doc.encoding doc.text c.pos ∨ c.pos = doc.size + 1
  width : c.more = true → c.width = (doc.decodeAt c.pos).2
  nextWidth : c.more = true → c.nextWidth = (doc.decodeAt (c.pos + c.width)).2
  segment_le : c.pen.segment ≤ doc.size

namespace Cursor.Steady

variable {doc : Document} {c : Cursor}

theorem start (hdoc : doc.WellFormed) (span : Span) : Steady doc (Cursor.start doc span) where
  source := .refl doc
  stop_le := (settled_start doc hdoc span).stop_le
  pos := .inl (.of_startsLine (hdoc.startsLine_wholeLines_start span))
  width := fun _ => rfl
  nextWidth := fun _ => rfl
  segment_le := hdoc.wholeLines_start_le span

theorem forward (h : Steady doc c) : Steady doc c.forward := by
  cases hmore : c.more with
  | true =>
    have hpos : c.pos < c.stop := of_decide_eq_true hmore
    have hstop := h.stop_le
    rw [forward_of_more hmore]
    refine
      { source := h.source
        stop_le := h.stop_le
        pos := ?_
        width := fun _ => h.nextWidth hmore
        nextWidth := fun _ => ?_
        segment_le := h.segment_le }
    . show CharBoundary doc.encoding doc.text (c.pos + c.width) ∨ c.pos + c.width = doc.size + 1
      rcases h.pos with hbound | hbehind
      . rw [h.width hmore]
        by_cases hlt : c.pos < doc.size
        . exact .inl (hbound.behind hlt)
        -- The end of the text is as wide as a character of one byte.
        . have hsize : doc.text.size ≤ c.pos := Nat.le_of_not_lt hlt
          have hle := hbound.le_size
          rw [Document.decodeAt, doc.encoding.decodeAt_of_size_le hsize, Document.size]
          exact .inr (by omega)
      . omega
    . show (c.doc.decodeAt (c.pos + c.width + c.nextWidth)).2 = (doc.decodeAt (c.pos + c.width + c.nextWidth)).2
      rw [Document.decodeAt, Document.decodeAt, h.source.text, h.source.encoding]
  | false =>
    rw [Cursor.forward, if_neg (by simp [hmore])]
    exact
      { source := h.source
        stop_le := h.stop_le
        pos := h.pos
        width := fun hmore' => absurd hmore' (ne_true_of_eq_false hmore)
        nextWidth := fun hmore' => absurd hmore' (ne_true_of_eq_false hmore)
        segment_le := h.segment_le }

theorem forwardBy (h : Steady doc c) (count : Nat) : Steady doc (c.forwardBy count) := by
  induction count with
  | zero => exact h
  | succ count ih =>
    rw [forwardBy_succ]
    exact ih.forward

theorem size_eq (h : Steady doc c) : c.doc.size = doc.size :=
  h.source.size

theorem colourTo (h : Steady doc c) (stop : Nat) (style state : Style) :
    Steady doc { c with pen := c.pen.colourTo stop style, state } where
  source := h.source.trans (sameSource_colourTo c.pen stop style)
  stop_le := h.stop_le
  pos := h.pos
  width := h.width
  nextWidth := h.nextWidth
  segment_le := by
    have hsize : c.pen.doc.size = doc.size := h.size_eq
    have hsegment := h.segment_le
    show (c.pen.colourTo stop style).segment ≤ doc.size
    rw [Pen.segment_colourTo]
    omega

theorem apply (h : Steady doc c) (move : Move) : Steady doc (move.apply c) := by
  cases move with
  | forward => exact h.forward
  | forwardBy count => exact h.forwardBy count
  | setState state => exact h.colourTo c.pos c.state state
  | changeState state => exact ⟨h.source, h.stop_le, h.pos, h.width, h.nextWidth, h.segment_le⟩
  | forwardSetState state => exact h.forward.colourTo c.forward.pos c.forward.state state
  | colourTo stop style => exact h.colourTo stop style c.state

theorem finish (client : Client) (h : Steady doc c) : Steady doc (client.finish c) := by
  induction client generalizing c with
  | complete => exact h
  | make move rest ih => exact ih (h.apply move)
  | look rest ih => exact ih c h

/--
Where a token ends at the cursor, no character goes on.
-/
theorem charBoundary_of_mem (h : Steady doc c) {tile : Tile} (hmem : tile ∈ c.pen.tiles c.pos c.state true) :
    CharBoundary doc.encoding doc.text tile.stop := by
  have hsize : c.pen.doc.size = doc.size := h.size_eq
  rw [(Pen.stop_eq_of_mem_tiles hmem).1, hsize]
  rcases h.pos with hbound | hbehind
  . have hle : c.pos ≤ doc.size := hbound.le_size
    rwa [Nat.min_eq_left hle]
  . rw [hbehind, Nat.min_eq_right (Nat.le_succ _)]
    exact .size doc.encoding doc.text

theorem charBoundary_of_mem_move (h : Steady doc c) {move : Move} {tile : Tile} (hmem : tile ∈ move.tiles c)
    (hcursor : tile.atCursor = true) : CharBoundary doc.encoding doc.text tile.stop := by
  cases move with
  | forward => cases hmem
  | forwardBy count => cases hmem
  | changeState state => cases hmem
  | setState state => exact h.charBoundary_of_mem hmem
  | forwardSetState state => exact h.forward.charBoundary_of_mem hmem
  | colourTo stop style =>
    rw [(Pen.stop_eq_of_mem_tiles hmem).2] at hcursor
    cases hcursor

theorem charBoundary_of_mem_tiles (client : Client) (h : Steady doc c) {tile : Tile} (hmem : tile ∈ client.tiles c)
    (hcursor : tile.atCursor = true) : CharBoundary doc.encoding doc.text tile.stop := by
  induction client generalizing c with
  | complete => exact h.charBoundary_of_mem hmem
  | make move rest ih =>
    rcases List.mem_append.mp hmem with hfirst | hrest
    . exact h.charBoundary_of_mem_move hfirst hcursor
    . exact ih (h.apply move) hrest
  | look rest ih => exact ih c h hmem

end Cursor.Steady

namespace Client

/--
What a client writes to a document through a cursor. Its tiles are painted one after the other, without a gap, from the
start of the whole lines to a place that is not in front of the cursor, so each byte in between is written once and has
the style that its token had when it ended. No other byte is written, and nothing but styles. All tokens that
the cursor ended do so between two characters.
-/
theorem tiles_range (doc : Document) (hdoc : doc.WellFormed) (span : Span) (client : Client) :
    let start := (doc.wholeLines span).start
    let last := client.finish (Cursor.start doc span)
    let tiles := client.tiles (Cursor.start doc span)
    ∃ stop, min last.pos doc.size ≤ stop ∧ stop ≤ doc.size ∧ Tile.Consecutive start stop tiles
      ∧ last.complete = tiles.foldl Tile.paint doc
      ∧ (∀ i, tiles.countP (·.covers i) = if start ≤ i ∧ i < stop then 1 else 0)
      ∧ (∀ tile ∈ tiles, ∀ i, tile.covers i = true → last.complete.styles[i]? = some tile.style)
      ∧ (∀ i, i < start ∨ stop ≤ i → last.complete.styles[i]? = doc.styles[i]?)
      ∧ last.complete = { doc with styles := last.complete.styles }
      ∧ ∀ tile ∈ tiles, tile.atCursor = true → CharBoundary doc.encoding doc.text tile.stop := by
  intro start last tiles
  have hsteady := Cursor.Steady.start hdoc span
  have hlast : Cursor.Steady doc last := hsteady.finish client
  have hsize : last.pen.doc.size = doc.size := hlast.size_eq
  have htiles : Tile.Consecutive start last.commit.pen.segment tiles := client.consecutive_tiles (Cursor.start doc span)
  have hdoc' : last.complete = tiles.foldl Tile.paint doc := client.complete_finish (Cursor.start doc span)
  have hsegment : last.commit.pen.segment = max last.pen.segment (min last.pos last.pen.doc.size) := Pen.segment_colourTo _ _ _
  have hstop : last.commit.pen.segment ≤ doc.size := by
    have := hlast.segment_le
    omega
  refine ⟨last.commit.pen.segment, by omega, hstop, htiles, hdoc', htiles.countP_covers, ?_, ?_, ?_, ?_⟩
  . intro tile hmem i hi
    rw [hdoc']
    apply htiles.getElem?_foldl_paint_of_covers _ hmem hi
    rwa [hdoc.styles]
  . intro i hi
    rw [hdoc']
    exact htiles.getElem?_foldl_paint_of_not doc hi
  . rw [hdoc']
    exact Tile.foldl_paint doc tiles
  . intro tile hmem hcursor
    exact hsteady.charBoundary_of_mem_tiles client hmem hcursor

/--
A client that colours up to the middle of a character of three bytes, in front of which the cursor stands. The token that
ends next starts there.
-/
theorem tiles_range_inside_character :
    let doc := Document.fresh #[0xC3, 0xA9, 0xE2, 0x82, 0xAC, 0x78, 0x0A] .utf8 .empty
    let client : Client :=
      .make .forward (.make (.colourTo 4 9) (.make (.setState 1) (.look fun c =>
        .make .forward (if c.next.is 'x' then .make (.forwardSetState 2) .complete else .complete))))
    let last := client.finish (Cursor.start doc ⟨0, 7, 4⟩)
    client.tiles (Cursor.start doc ⟨0, 7, 4⟩) = [⟨0, 4, 9, false⟩, ⟨4, 6, 1, true⟩]
      ∧ (∀ i, 4 ≤ i → i < 6 → last.complete.styles[i]? = some 1) ∧ CharBoundary .utf8 doc.text 6 := by
  intro doc client last
  have hdoc : doc.WellFormed := Document.wellFormed_fresh _ .utf8 .empty
  obtain ⟨stop, _, _, _, _, _, hstyles, _, _, hbound⟩ := tiles_range doc hdoc ⟨0, 7, 4⟩ client
  have htiles : client.tiles (Cursor.start doc ⟨0, 7, 4⟩) = [⟨0, 4, 9, false⟩, ⟨4, 6, 1, true⟩] := by decide +kernel
  have hmem : (⟨4, 6, 1, true⟩ : Tile) ∈ client.tiles (Cursor.start doc ⟨0, 7, 4⟩) := by simp [htiles]
  refine ⟨htiles, ?_, hbound _ hmem rfl⟩
  intro i hi hi'
  apply hstyles _ hmem
  simp [Tile.covers, hi, hi']

end Client

end Highlight
