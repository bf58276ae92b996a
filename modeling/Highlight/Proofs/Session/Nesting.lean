import Highlight.Proofs.Haskell.Nesting
import Highlight.Proofs.Rust.Nesting

/-!
The two languages whose comments nest keep their depth all along a pass from the start of a text, and store it with each
line.
-/

namespace Highlight.Session

/--
A text without bytes has one line, which has no state.
-/
theorem lineState_colour_of_empty (session : Session) (text : Array UInt8) (encoding : Encoding) (options : Options)
    (hsize : text.size = 0) (line : Nat) :
    (session.colour (.fresh text encoding options) 0 text.size).lineState line = 0 := by
  obtain rfl : text = #[] := Array.eq_empty_of_size_eq_zero hsize
  have hcolour : session.colour (.fresh #[] encoding options) 0 (#[] : Array UInt8).size = .fresh #[] encoding options := rfl
  rw [hcolour, Document.lineState, Document.fresh, Document.ofText, Array.getElem?_replicate]
  split
  . rfl
  . rfl

/--
All along a pass over a text of Rust, a nested comment is open if, and only if, the depth is not zero, and then the depth is
the number of openers less that of closers since the comment was opened. Each line stores the depth at its end. In a pass
over a text of Haskell, the depth of an open block comment is such a number, too. It is never zero: where it would be, the
comment ends. Each line that ends in the comment stores it.
-/
theorem colour_tracks_depth (session : Session) (text : Array UInt8) (encoding : Encoding)
    (hencoding : encoding = .singleByte ∨ encoding = .utf8) (options : Options) :
    let doc := Document.fresh text encoding options
    let styled := session.colour doc 0 text.size
    (session.lexer = Rust.lexer →
      (∀ s, Rust.Visits session.keywords doc s → (s.cursor.state = Rust.Style.commentNested ↔ 0 < s.nesting)
        ∧ (0 < s.nesting → ∃ q, Rust.Nested session.keywords doc q s)
        ∧ ∀ q, Rust.Nested session.keywords doc q s → Rust.nested.balance (doc.bytes q s.cursor.pos).toList = s.nesting)
      ∧ ∀ line, line < doc.lineCount → (∃ t, Rust.Visits session.keywords doc t ∧ t.cursor.pos = doc.behindLine line)
        ∧ ∀ t, Rust.Visits session.keywords doc t → t.cursor.pos = doc.behindLine line →
          styled.lineState line = Rust.Nesting.pack t.nesting
            ∧ (text.size < 1 <<< 32 → Rust.Nesting.unpack (styled.lineState line) = t.nesting))
    ∧ (session.lexer = Haskell.lexer →
      (∀ s, Haskell.Visits session.keywords doc s →
        (s.cursor.state = Haskell.Style.commentBlock → ∃ q, Haskell.InBlock session.keywords doc q s)
        ∧ ∀ q, Haskell.InBlock session.keywords doc q s → s.cursor.state = Haskell.Style.commentBlock ∧ 1 ≤ s.memory.extra
          ∧ Haskell.block.balance (doc.bytes q s.cursor.pos).toList = s.memory.extra
          ∧ (s.cursor.more = true →
            let l := s.left (Haskell.Settings.read session.keywords options)
            l.cursor.state = if Haskell.block.balance (doc.bytes q l.cursor.pos).toList = 0 then Haskell.Style.default
              else Haskell.Style.commentBlock))
      ∧ ∀ line, line < doc.lineCount → (∃ t, Haskell.Visits session.keywords doc t ∧ t.cursor.pos = doc.behindLine line)
        ∧ ∀ t, Haskell.Visits session.keywords doc t → t.cursor.pos = doc.behindLine line →
          t.cursor.state = Haskell.Style.commentBlock → styled.lineState line = t.memory.pack
            ∧ (text.size < 1 <<< 28 → (Haskell.Memory.unpack (styled.lineState line)).extra = t.memory.extra)) := by
  intro doc styled
  have hdoc : doc.WellFormed := Document.wellFormed_fresh text encoding options
  have hsingle : ∀ page, doc.encoding ≠ .doubleByte page := by
    intro page hpage
    rcases hencoding with h | h
    . exact absurd (h.symm.trans hpage) (by simp)
    . exact absurd (h.symm.trans hpage) (by simp)
  have hstyled : 0 < doc.size → styled = session.lexer.colour session.keywords ⟨0, doc.size, 0⟩ doc := session.colour_whole hdoc
  refine ⟨fun hsession => ⟨?_, ?_⟩, fun hsession => ⟨?_, ?_⟩⟩
  . intro s hs
    refine ⟨hs.nested_iff hdoc hsingle, hs.exists_nested hdoc hsingle, ?_⟩
    intro q hq
    exact (hq.reads hdoc hsingle).2.balance_eq
  . intro line hline
    refine ⟨Rust.Visits.exists_behindLine hdoc session.keywords line, ?_⟩
    intro t ht hpos
    have hle : 2 * t.nesting ≤ text.size := ht.two_mul_nesting_le hdoc hsingle
    have hstate : styled.lineState line = Rust.Nesting.pack t.nesting := by
      rcases Nat.eq_zero_or_pos text.size with hempty | hsize
      . obtain hzero : t.nesting = 0 := by omega
        rw [hzero]
        exact lineState_colour_of_empty session text encoding options hempty line
      . rw [hstyled hsize, hsession]
        exact ht.lineState_colour hdoc hline hpos
    refine ⟨hstate, fun hsmall => ?_⟩
    rw [hstate]
    apply Rust.Nesting.unpack_pack
    rw [Nat.one_shiftLeft] at *
    omega
  . intro s hs
    refine ⟨hs.exists_inBlock hdoc hsingle, ?_⟩
    intro q hq
    obtain ⟨_, hstate, hreads⟩ := hq.reads hdoc hsingle
    have hsome := (hs.deep hdoc hsingle hstate).1
    refine ⟨hstate, hsome, hreads.balance_eq, ?_⟩
    intro hmore l
    have hdeepens : s.storeLines.Deepens doc l := hs.deepens hdoc hsingle hmore hstate hsome
    have hleft := (hdeepens.reads q (s.pos_storeLines.symm ▸ hreads)).balance_eq
    rw [hdeepens.state, hleft]
    simp only [Int.natCast_eq_zero]
  . intro line hline
    refine ⟨Haskell.Visits.exists_behindLine hdoc session.keywords line, ?_⟩
    intro t ht hpos hblock
    have hle : 2 * t.memory.extra ≤ text.size := ht.two_mul_extra_le hdoc hsingle hblock
    have hsome := (ht.deep hdoc hsingle hblock).1
    have hsize : 0 < doc.size := Nat.lt_of_lt_of_le (Nat.mul_pos Nat.two_pos hsome) hle
    have hstate : styled.lineState line = t.memory.pack := by
      rw [hstyled hsize, hsession, show Haskell.lexer.colour = Haskell.colour from rfl]
      exact ht.lineState_colour hdoc hsingle hblock hline hpos
    refine ⟨hstate, fun hsmall => ?_⟩
    have hfits : t.memory.extra < 1 <<< 27 := by
      rw [Nat.one_shiftLeft] at *
      omega
    rw [hstate, Haskell.Memory.unpack_pack hfits]

/--
A line with two openers that ends in front of a closer, with what looks like a closer between them in Rust, and behind them in
Haskell.
-/
theorem colour_tracks_depth_overlap :
    let rust := Session.ofLexer Rust.lexer
    let haskell := Session.ofLexer Haskell.lexer
    let nested := Document.fresh "/+/+/\n+/é".toUTF8.data .utf8 .empty
    let block := Document.fresh "\x7b-\x7b-\x7d\n-\x7d".toUTF8.data .singleByte .empty
    (∃ t q, Rust.Nested rust.keywords nested q t ∧ Rust.nested.balance (nested.bytes q 6).toList = 2
        ∧ Rust.Nesting.unpack ((rust.colour nested 0 10).lineState 0) = 2)
      ∧ ∃ t q, Haskell.InBlock haskell.keywords block q t ∧ Haskell.block.balance (block.bytes q 6).toList = 2
        ∧ (Haskell.Memory.unpack ((haskell.colour block 0 8).lineState 0)).extra = 2 := by
  intro rust haskell nested block
  have hnested := (colour_tracks_depth rust "/+/+/\n+/é".toUTF8.data .utf8 (.inr rfl) .empty).1 rfl
  have hblock := (colour_tracks_depth haskell "\x7b-\x7b-\x7d\n-\x7d".toUTF8.data .singleByte (.inl rfl) .empty).2 rfl
  have hvisits := iterates_repeatWhile (·.cursor.more) (Rust.Scan.step rust.keywords) 4
    (.ofSpan ⟨0, nested.size, Rust.Style.default⟩ nested)
  have hvisits' := iterates_repeatWhile (·.cursor.more) (Haskell.Scan.step (.read haskell.keywords block.options)) 4
    (.ofSpan ⟨0, block.size, Haskell.Style.default⟩ block)
  generalize hs : repeatWhile (·.cursor.more) (Rust.Scan.step rust.keywords) 4
    (.ofSpan ⟨0, nested.size, Rust.Style.default⟩ nested) = s at hvisits
  generalize hs' : repeatWhile (·.cursor.more) (Haskell.Scan.step (.read haskell.keywords block.options)) 4
    (.ofSpan ⟨0, block.size, Haskell.Style.default⟩ block) = s' at hvisits'
  have hpos : s.cursor.pos = 6 ∧ nested.behindLine 0 = 6 ∧ s.nesting = 2 := by
    rw [← hs]
    decide +kernel
  have hpos' : s'.cursor.pos = 6 ∧ block.behindLine 0 = 6 ∧ s'.memory.extra = 2 ∧ s'.cursor.state = Haskell.Style.commentBlock := by
    rw [← hs']
    decide +kernel
  constructor
  . obtain ⟨_, hopened, hbalance⟩ := hnested.1 s hvisits
    obtain ⟨q, hq⟩ := hopened (by omega)
    have hbalance := hbalance q hq
    have hstored := ((hnested.2 0 (by decide +kernel)).2 s hvisits (hpos.1.trans hpos.2.1.symm)).2 (by decide)
    rw [hpos.1, hpos.2.2] at hbalance
    exact ⟨s, q, hq, hbalance, hstored.trans hpos.2.2⟩
  . obtain ⟨hopened, hbalance⟩ := hblock.1 s' hvisits'
    obtain ⟨q, hq⟩ := hopened hpos'.2.2.2
    have hbalance := (hbalance q hq).2.2.1
    have hstored := ((hblock.2 0 (by decide +kernel)).2 s' hvisits' (hpos'.1.trans hpos'.2.1.symm) hpos'.2.2.2).2 (by decide)
    rw [hpos'.1, hpos'.2.2.1] at hbalance
    exact ⟨s', q, hq, hbalance, hstored.trans hpos'.2.2.1⟩

end Highlight.Session
