import Highlight.Proofs.Document.Marks
import Highlight.Proofs.Document.Word
import Highlight.Proofs.WordList
import Highlight.Sql.Abbreviation

/-!
Short forms in a text against those of keyword lists. Both take the same words for short forms of a pattern. In a text a space
has to follow; a semicolon can follow the whole word, but no shorter form of it.
-/

namespace Highlight.Sql

variable {doc : Document} {pos n : Nat} {pattern rest : List Code} {p : Code} {short : Bool}

/--
Whether a word can end in front of `pos`.
-/
def endsWord (doc : Document) (pos : Nat) : Bool :=
  (codeAt doc pos).isSpace || (codeAt doc pos).is ';'

def lowerText (doc : Document) (start length : Nat) : List Code :=
  (List.range' start length).map (lowerAt doc)

theorem length_lowerText (doc : Document) (start length : Nat) : (lowerText doc start length).length = length := by
  rw [lowerText, List.length_map, List.length_range']

theorem lowerText_succ (doc : Document) (start length : Nat) :
    lowerText doc start (length + 1) = lowerAt doc start :: lowerText doc (start + 1) length := by
  rw [lowerText, List.range'_succ, List.map_cons]
  rfl

section Rest

/--
The `n` bytes at `pos` are what is left of a word with the rest `pattern`, or of a short form of it. `short` says that the
shortest form was complete before.
-/
structure Completes (doc : Document) (pos : Nat) (pattern : List Code) (short : Bool) (n : Nat) : Prop where
  starts : lowerText doc pos n <+: pattern.erase '~'.toNat
  reaches : short = true ∨ if '~'.toNat ∈ pattern then pattern.idxOf '~'.toNat ≤ n else lowerText doc pos n = pattern
  ends : (codeAt doc (pos + n)).isSpace = true
    ∨ (codeAt doc (pos + n)).is ';' = true ∧ lowerText doc pos n = pattern.erase '~'.toNat

theorem completes_nil : Completes doc pos [] short n ↔ n = 0 ∧ endsWord doc pos = true := by
  rw [endsWord, Bool.or_eq_true]
  constructor
  . rintro ⟨hstarts, _, hends⟩
    obtain rfl : n = 0 := by
      rw [← length_lowerText doc pos n, List.prefix_nil.mp hstarts, List.length_nil]
    exact ⟨rfl, hends.imp_right And.left⟩
  . rintro ⟨rfl, hends⟩
    exact ⟨List.prefix_rfl, .inr rfl, hends.imp_right fun h => ⟨h, rfl⟩⟩

theorem completes_cons_zero (hp : p ≠ '~'.toNat) :
    Completes doc pos (p :: rest) short 0 ↔ short = true ∧ (codeAt doc pos).isSpace = true := by
  have herase : (p :: rest).erase '~'.toNat = p :: rest.erase '~'.toNat := List.erase_cons_tail fun h => hp (beq_iff_eq.mp h)
  constructor
  . rintro ⟨_, hreaches, hends⟩
    refine ⟨hreaches.resolve_right fun h => ?_, hends.resolve_right fun h => ?_⟩
    . rw [List.idxOf_cons_ne _ hp] at h
      split at h
      . exact absurd h (Nat.not_succ_le_zero _)
      . cases h
    . rw [herase] at h
      cases h.2
  . rintro ⟨hshort, hspace⟩
    exact ⟨List.nil_prefix, .inl hshort, .inl hspace⟩

theorem completes_cons_succ (hp : p ≠ '~'.toNat) :
    Completes doc pos (p :: rest) short (n + 1) ↔ lowerAt doc pos = p ∧ Completes doc (pos + 1) rest short n := by
  have herase : (p :: rest).erase '~'.toNat = p :: rest.erase '~'.toNat := List.erase_cons_tail fun h => hp (beq_iff_eq.mp h)
  have hmem : '~'.toNat ∈ p :: rest ↔ '~'.toNat ∈ rest := by
    rw [List.mem_cons, or_iff_right hp.symm]
  have hpos : pos + (n + 1) = pos + 1 + n := by omega
  constructor
  . rintro ⟨hstarts, hreaches, hends⟩
    rw [herase, lowerText_succ, List.cons_prefix_cons] at hstarts
    simp only [hmem, List.idxOf_cons_ne _ hp, lowerText_succ, List.cons.injEq, hstarts.1, true_and, Nat.succ_eq_add_one,
      Nat.add_le_add_iff_right] at hreaches
    simp only [herase, lowerText_succ, List.cons.injEq, hstarts.1, true_and, hpos] at hends
    exact ⟨hstarts.1, hstarts.2, hreaches, hends⟩
  . rintro ⟨hfirst, hstarts, hreaches, hends⟩
    refine ⟨?_, ?_, ?_⟩
    . rw [herase, lowerText_succ, List.cons_prefix_cons]
      exact ⟨hfirst, hstarts⟩
    . simp only [hmem, List.idxOf_cons_ne _ hp, lowerText_succ, List.cons.injEq, hfirst, true_and, Nat.succ_eq_add_one,
        Nat.add_le_add_iff_right]
      exact hreaches
    . simp only [herase, lowerText_succ, List.cons.injEq, hfirst, true_and, hpos]
      exact hends

/--
At the marker, the shortest form is complete.
-/
theorem completes_marker (h : '~'.toNat ∉ rest) :
    Completes doc pos ('~'.toNat :: rest) short n ↔ Completes doc pos rest true n := by
  have herase : ('~'.toNat :: rest).erase '~'.toNat = rest.erase '~'.toNat := by
    rw [List.erase_cons_head, List.erase_of_not_mem h]
  constructor
  . rintro ⟨hstarts, _, hends⟩
    rw [herase] at hstarts hends
    exact ⟨hstarts, .inl rfl, hends⟩
  . rintro ⟨hstarts, _, hends⟩
    refine ⟨?_, .inr ?_, ?_⟩
    . rw [herase]
      exact hstarts
    . rw [if_pos List.mem_cons_self, List.idxOf_cons_self]
      exact Nat.zero_le n
    . rw [herase]
      exact hends

/--
A scan that comes to the marker goes on behind it with the shortest form complete.
-/
theorem go_marker (hp : p ≠ '~'.toNat) :
    abbreviatedAt.go doc pos ('~'.toNat :: p :: rest) short = abbreviatedAt.go doc pos (p :: rest) true := by
  have hmarker : Code.is p '~' = false := beq_false_of_ne hp
  rw [abbreviatedAt.go, abbreviatedAt.go.eq_def doc pos (p :: rest)]
  dsimp only
  rw [if_pos (show Code.is '~'.toNat '~' = true from rfl), hmarker, if_neg Bool.false_ne_true, Bool.true_and]

theorem go_iff_completes (hcount : pattern.count '~'.toNat ≤ 1) (hlast : pattern.getLast? ≠ some '~'.toNat) :
    abbreviatedAt.go doc pos pattern short = true ↔ ∃ n, Completes doc pos pattern short n := by
  induction pattern generalizing pos short with
  | nil =>
    simp only [completes_nil, exists_eq_left]
    exact Iff.rfl
  | cons p rest ih =>
    have hlast' : rest.getLast? ≠ some '~'.toNat := fun h => hlast (by rw [List.getLast?_cons, h]; rfl)
    by_cases hp : p = '~'.toNat
    . subst hp
      have hmem : '~'.toNat ∉ rest := by
        rw [List.count_cons_self] at hcount
        exact List.count_eq_zero.mp (by omega)
      cases rest with
      | nil => exact absurd rfl hlast
      | cons q rest =>
        have hq : q ≠ '~'.toNat := fun h => hmem (h ▸ List.mem_cons_self)
        rw [go_marker hq, ih (by rw [List.count_eq_zero.mpr hmem]; exact Nat.zero_le 1) hlast']
        simp only [completes_marker hmem]
    . rw [List.count_cons_of_ne hp] at hcount
      rw [abbreviatedAt.go.eq_def]
      dsimp only
      rw [show Code.is p '~' = false from beq_false_of_ne hp, if_neg Bool.false_ne_true, Bool.or_eq_true, Bool.and_eq_true,
        Bool.and_eq_true, beq_iff_eq, ih hcount hlast']
      refine Iff.trans ?_ Nat.or_exists_add_one
      simp only [completes_cons_zero hp, completes_cons_succ hp, exists_and_left]

end Rest

variable {word : String}

/--
The scan for a pattern finds as many bytes as the pattern and what follows allow.
-/
theorem abbreviatedAt_iff_completes (hcodes : (Utf8.encode word).map UInt8.toNat = pattern)
    (hcount : pattern.count '~'.toNat ≤ 1) (hfirst : pattern.head? ≠ some '~'.toNat) (hlast : pattern.getLast? ≠ some '~'.toNat) :
    abbreviatedAt doc pos word = true ↔ ∃ n > 0, Completes doc pos pattern false n := by
  have hpositive : (∃ n > 0, Completes doc pos pattern false n) ↔ ∃ n, Completes doc pos pattern false (n + 1) := by
    constructor
    . rintro ⟨n, hn, h⟩
      exact ⟨n - 1, by rwa [Nat.sub_add_cancel hn]⟩
    . rintro ⟨n, h⟩
      exact ⟨n + 1, Nat.succ_pos n, h⟩
  rw [hpositive, abbreviatedAt, hcodes]
  cases pattern with
  | nil =>
    simp only [completes_nil, Nat.add_eq_zero_iff, Nat.one_ne_zero, and_false, false_and, exists_false, Bool.false_eq_true]
  | cons first rest =>
    have hne : first ≠ '~'.toNat := fun h => hfirst (congrArg some h)
    have hlast' : rest.getLast? ≠ some '~'.toNat := fun h => hlast (by rw [List.getLast?_cons, h]; rfl)
    rw [List.count_cons_of_ne hne] at hcount
    simp only [completes_cons_succ hne, exists_and_left]
    rw [← go_iff_completes hcount hlast', Bool.and_eq_true, beq_iff_eq]
    refine and_congr_right fun _ => ?_
    cases rest with
    | nil => rfl
    | cons p more =>
      dsimp only
      split
      . next hmarker =>
        obtain rfl := beq_iff_eq.mp hmarker
        cases more with
        | nil => exact absurd rfl hlast'
        | cons q more =>
          rw [go_marker]
          rintro rfl
          rw [List.count_cons_self, List.count_cons_self] at hcount
          omega
      . rfl

/--
A word without short forms is found where it stands in front of a space or a semicolon.
-/
theorem abbreviatedAt_iff (hsome : (Utf8.encode word).map UInt8.toNat ≠ [])
    (hplain : ∀ c ∈ (Utf8.encode word).map UInt8.toNat, Code.is c '~' = false) :
    abbreviatedAt doc pos word = true
      ↔ lowerText doc pos ((Utf8.encode word).map UInt8.toNat).length = (Utf8.encode word).map UInt8.toNat
        ∧ endsWord doc (pos + ((Utf8.encode word).map UInt8.toNat).length) = true := by
  have hmem : '~'.toNat ∉ (Utf8.encode word).map UInt8.toNat := fun h => Bool.noConfusion (hplain _ h)
  rw [abbreviatedAt_iff_completes rfl (by rw [List.count_eq_zero.mpr hmem]; exact Nat.zero_le 1)
    (fun h => hmem (List.mem_of_head? h)) (fun h => hmem (List.mem_of_getLast? h))]
  rw [endsWord, Bool.or_eq_true]
  constructor
  . rintro ⟨n, _, _, hreaches, hends⟩
    have hwhole := hreaches.resolve_left Bool.false_ne_true
    rw [if_neg hmem] at hwhole
    have hlength := congrArg List.length hwhole
    rw [length_lowerText] at hlength
    rw [← hlength]
    exact ⟨hwhole, hends.imp_right And.left⟩
  . rintro ⟨hwhole, hends⟩
    refine ⟨_, List.length_pos_iff.mpr hsome, ?_, .inr ?_, ?_⟩
    . simp only [List.erase_of_not_mem hmem, hwhole, List.prefix_rfl]
    . rw [if_neg hmem]
      exact hwhole
    . rw [List.erase_of_not_mem hmem]
      exact hends.imp_right fun h => ⟨h, hwhole⟩

section Bytes

/--
The text that has a character for each byte.
-/
def byteText (bytes : List Code) : String :=
  String.ofList (bytes.map Char.ofNat)

theorem toNat_toList_byteText {bytes : List Code} (h : ∀ c ∈ bytes, c < 256) : (byteText bytes).toList.map Char.toNat = bytes := by
  rw [byteText, String.toList_ofList, List.map_map]
  refine (List.map_congr_left fun c hc => ?_).trans (List.map_id bytes)
  exact Utf8.toNat_ofNat_of_lt (Nat.lt_trans (h c hc) (by decide))

theorem byteText_encode (h : IsAscii word.toList) : byteText ((Utf8.encode word).map UInt8.toNat) = word := by
  rw [byteText, IsAscii.encode_eq h, List.map_map, List.map_map]
  refine (congrArg String.ofList ((List.map_congr_left fun x hx => ?_).trans (List.map_id _))).trans String.ofList_toList
  show Char.ofNat x.toUInt8.toNat = x
  rw [IsAscii.toNat_toUInt8 (h x hx), Char.ofNat_toNat]

theorem lowerAt_lt (doc : Document) (pos : Nat) : lowerAt doc pos < 256 := by
  have hbyte : codeAt doc pos < 256 := UInt8.toNat_lt _
  unfold lowerAt Code.toLower
  split
  . next hupper =>
    have hle : (codeAt doc pos : Nat) ≤ 0x5A := of_decide_eq_true (Bool.and_eq_true_iff.mp hupper).2
    exact Nat.lt_of_le_of_lt (Nat.add_le_add_right hle 32) (by decide)
  . exact hbyte

/--
The scan accepts the same bytes as the walk of keyword lists does.
-/
theorem completes_iff_abbreviates (hbytes : ∀ c ∈ pattern, c < 256) (hcount : pattern.count '~'.toNat ≤ 1)
    (hfirst : pattern.head? ≠ some '~'.toNat) :
    Completes doc pos pattern false n
      ↔ WordList.abbreviates '~' (byteText pattern) (byteText (lowerText doc pos n)) = true
        ∧ ((codeAt doc (pos + n)).isSpace = true
          ∨ (codeAt doc (pos + n)).is ';' = true ∧ lowerText doc pos n = pattern.erase '~'.toNat) := by
  have htext : ∀ c ∈ lowerText doc pos n, c < 256 := by
    intro c hc
    obtain ⟨i, _, rfl⟩ := List.mem_map.mp hc
    exact lowerAt_lt doc i
  have hpattern := toNat_toList_byteText hbytes
  have hfirst' : (byteText pattern).toList.head? ≠ some '~' := by
    intro h
    rw [← hpattern, List.head?_map, h] at hfirst
    exact hfirst rfl
  have hcount' : (byteText pattern).toList.count '~' ≤ 1 := by
    have hle := List.count_le_count_map (l := (byteText pattern).toList) (f := Char.toNat) (x := '~')
    rw [hpattern] at hle
    exact Nat.le_trans hle hcount
  rw [WordList.abbreviates_iff hfirst' hcount', ← WordList.isShortForm_map (f := Char.toNat) fun _ _ => Char.toNat_inj.mp, hpattern,
    toNat_toList_byteText htext, WordList.IsShortForm, length_lowerText]
  constructor
  . rintro ⟨hstarts, hreaches, hends⟩
    exact ⟨⟨hstarts, hreaches.resolve_left Bool.false_ne_true⟩, hends⟩
  . rintro ⟨⟨hstarts, hreaches⟩, hends⟩
    exact ⟨hstarts, .inr hreaches, hends⟩

/--
Past the end only blanks are read.
-/
theorem Completes.le_size (h : Completes doc pos pattern short n) (hn : 0 < n) (hblank : Code.blank ∉ pattern) :
    pos + n ≤ doc.size := by
  by_contra hsize
  have hlast : lowerAt doc (pos + (n - 1)) = Code.blank := by
    have hnone : doc.text[pos + (n - 1)]? = none := Array.getElem?_eq_none (by show doc.size ≤ _; omega)
    rw [lowerAt, codeAt, Document.byteAt, hnone]
    rfl
  have hmem : Code.blank ∈ lowerText doc pos n := by
    rw [← hlast]
    exact List.mem_map_of_mem (List.mem_range'_1.mpr (by omega))
  exact hblank (List.mem_of_mem_erase (h.starts.subset hmem))

/--
A pattern with at most one marker, which is neither its first character nor its last one, is found where its short forms are:
some bytes, in lower case, are one for keyword lists, and a space follows, which the text also has past its end; or they are the
whole word, and a semicolon follows. The bytes are in the text, unless blanks of the pattern go on behind it. They are read as
the characters of the same numbers, which for an ASCII pattern are its own.
-/
theorem abbreviatedAt_iff_abbreviates (doc : Document) (pos : Nat) (word : String) (hcount : word.toList.count '~' ≤ 1)
    (hfirst : word.toList.head? ≠ some '~') (hlast : word.toList.getLast? ≠ some '~') :
    let pattern := (Utf8.encode word).map UInt8.toNat
    (IsAscii word.toList → byteText pattern = word)
      ∧ (abbreviatedAt doc pos word = true
        ↔ ∃ n > 0, (pos + n ≤ doc.size ∨ Code.blank ∈ pattern)
          ∧ WordList.abbreviates '~' (byteText pattern) (byteText (lowerText doc pos n)) = true
          ∧ ((codeAt doc (pos + n)).isSpace = true
            ∨ (codeAt doc (pos + n)).is ';' = true ∧ lowerText doc pos n = pattern.erase '~'.toNat)) := by
  intro pattern
  refine ⟨byteText_encode, ?_⟩
  have hascii : '~'.toNat < 0x80 := by decide
  have hbytes : ∀ c ∈ pattern, c < 256 := by
    intro c hc
    obtain ⟨b, _, rfl⟩ := List.mem_map.mp hc
    exact UInt8.toNat_lt b
  have hcount' : pattern.count '~'.toNat ≤ 1 := Nat.le_trans (Nat.le_of_eq (Utf8.count_encode hascii)) hcount
  have hfirst' : pattern.head? ≠ some '~'.toNat := fun h => hfirst (Utf8.head?_encode hascii h)
  rw [abbreviatedAt_iff_completes rfl hcount' hfirst' fun h => hlast (Utf8.getLast?_encode hascii h)]
  refine exists_congr fun n => and_congr_right fun hn => ?_
  rw [← completes_iff_abbreviates hbytes hcount' hfirst']
  refine (and_iff_right_of_imp fun h => ?_).symm
  by_cases hblank : Code.blank ∈ pattern
  . exact .inr hblank
  . exact .inl (h.le_size hn hblank)

/--
A short form in capitals.
-/
theorem abbreviatedAt_iff_abbreviates_rema :
    let doc := Document.fresh "REMA x".toUTF8.data .utf8 .empty
    ("rem~ark".toList.count '~' ≤ 1 ∧ "rem~ark".toList.head? ≠ some '~' ∧ "rem~ark".toList.getLast? ≠ some '~')
      ∧ abbreviatedAt doc 0 "rem~ark" = true := by
  intro doc
  have hcount : "rem~ark".toList.count '~' ≤ 1 := by decide
  have hfirst : "rem~ark".toList.head? ≠ some '~' := by decide
  have hlast : "rem~ark".toList.getLast? ≠ some '~' := by decide
  refine ⟨⟨hcount, hfirst, hlast⟩, (abbreviatedAt_iff_abbreviates doc 0 "rem~ark" hcount hfirst hlast).2.mpr ⟨4, by decide, ?_⟩⟩
  exact ⟨.inl (by decide), by decide +kernel, .inl (by decide +kernel)⟩

/--
A short form in front of a semicolon is not found.
-/
theorem abbreviatedAt_short_semicolon :
    let doc := Document.fresh "rem;".toUTF8.data .utf8 .empty
    abbreviatedAt doc 0 "rem~ark" = false ∧ lowerText doc 0 3 = (Utf8.encode "rem").map UInt8.toNat
      ∧ WordList.abbreviates '~' "rem~ark" "rem" = true ∧ (codeAt doc 3).is ';' = true := by
  decide +kernel

end Bytes

end Highlight.Sql
