import Highlight.Proofs.Fold.Next
import Highlight.Proofs.Session.Folding
import Highlight.Proofs.Sql.Abbreviation
import Highlight.Proofs.Style.Run

/-!
The blocks of SQL: what a fold pass without comments makes of the words of a line. The pass looks for words at every byte of
a run, and forgets an `end` only at an `if` or `loop`. So it counts the words of the line if no other word stands in a run,
and if an `if` or `loop` goes with an `end` only where nothing but blanks is between them.
-/

namespace Highlight.Sql

open LineIndex

/--
Whether a run is a word, in any case.
-/
def spells (doc : Document) (run : StyleRun) (word : String) : Bool :=
  lowerText doc run.start run.length == (Utf8.encode word).map UInt8.toNat

def isBlank (doc : Document) (start stop : Nat) : Bool :=
  (List.range' start (stop - start)).all fun i => (codeAt doc i).isSpace

/--
The words of a line: its maximal runs in the style of words.
-/
def lineWords (doc : Document) (line : Nat) : List StyleRun :=
  (doc.lineRuns line).filter (·.style == Style.word)

/--
What a word can be in a block. An `if` or `loop` behind an `end` opens none.
-/
inductive Role where
  | opens
  | begins
  | ends
  deriving DecidableEq, Repr

def role? (doc : Document) (run : StyleRun) : Option Role :=
  if spells doc run "if" || spells doc run "loop" then
    some .opens
  else if spells doc run "begin" then
    some .begins
  else if spells doc run "end" then
    some .ends
  else
    none

/--
The depth behind a word, and where the last `end` of the line ends.
-/
structure Blocks where
  depth : Int
  ended : Option Nat
  deriving DecidableEq, Repr

/--
An `if`, `loop` or `begin` opens a block, and an `end` closes one, but not below the base level. An `if` or `loop` opens none
if nothing but blanks stands between an `end` and it.
-/
def Blocks.count (doc : Document) (blocks : Blocks) (run : StyleRun) : Blocks :=
  match role? doc run with
  | some .opens =>
    if blocks.ended.any (isBlank doc · run.start) then blocks else { blocks with depth := blocks.depth + 1 }
  | some .begins => { blocks with depth := blocks.depth + 1 }
  | some .ends => ⟨max (blocks.depth - 1) Level.base.toInt, some run.stop⟩
  | none => blocks

/--
The words that a fold pass looks for.
-/
def blockWords : List String :=
  ["elsif", "if", "loop", "begin", "end"]

/--
In the run stands no word that a fold pass looks for, unless it is the run, or that is an `elsif`.
-/
def IsWhole (doc : Document) (run : StyleRun) : Prop :=
  ∀ i < run.stop, run.start ≤ i → ∀ word ∈ blockWords, abbreviatedAt doc i word = true →
    i = run.start ∧ spells doc run word = true ∨ spells doc run "elsif" = true

instance (doc : Document) (run : StyleRun) : Decidable (IsWhole doc run) :=
  inferInstanceAs (Decidable (∀ i < run.stop, _))

/--
If the next `if`, `loop` or `end` behind an `end` of the line is no `end`, nothing but blanks is between them.
-/
def EndsClose (doc : Document) (words : List StyleRun) : Prop :=
  match words with
  | [] => True
  | word :: words =>
    (role? doc word = some .ends →
      ∀ run ∈ words.find? (fun run => role? doc run == some .ends || role? doc run == some .opens), role? doc run = some .opens →
        isBlank doc word.stop run.start = true)
      ∧ EndsClose doc words

instance decidableEndsClose (doc : Document) (words : List StyleRun) : Decidable (EndsClose doc words) :=
  match words with
  | [] => inferInstanceAs (Decidable True)
  | _ :: words =>
    have := decidableEndsClose doc words
    inferInstanceAs (Decidable (_ ∧ _))

section Words

variable {doc : Document} {run : StyleRun} {word : String} {pos : Nat}

theorem getElem?_lowerText {start length i : Nat} (hi : i < length) :
    (lowerText doc start length)[i]? = some (lowerAt doc (start + i)) := by
  rw [lowerText, List.getElem?_map, List.getElem?_range' hi, Nat.one_mul]
  rfl

theorem abbreviatedAt_blockWord_iff (hword : word ∈ blockWords) : abbreviatedAt doc pos word = true
    ↔ lowerText doc pos ((Utf8.encode word).map UInt8.toNat).length = (Utf8.encode word).map UInt8.toNat
      ∧ endsWord doc (pos + ((Utf8.encode word).map UInt8.toNat).length) = true := by
  have hwords : ∀ word ∈ blockWords, (Utf8.encode word).map UInt8.toNat ≠ []
      ∧ ∀ c ∈ (Utf8.encode word).map UInt8.toNat, Code.is c '~' = false := by decide
  exact abbreviatedAt_iff (hwords word hword).1 (hwords word hword).2

theorem spells_iff (run : StyleRun) (word : String) : spells doc run word = true
    ↔ lowerText doc run.start run.length = (Utf8.encode word).map UInt8.toNat := by
  rw [spells, beq_iff_eq]

theorem length_of_spells (h : spells doc run word = true) : run.length = ((Utf8.encode word).map UInt8.toNat).length := by
  rw [← (spells_iff run word).mp h, length_lowerText]

/--
A run that is a word is found at its start.
-/
theorem abbreviatedAt_of_spells (hword : word ∈ blockWords) (hle : run.start ≤ run.stop) (h : spells doc run word = true)
    (hends : endsWord doc run.stop = true) : abbreviatedAt doc run.start word = true := by
  have hlength := length_of_spells h
  have hstop : run.start + run.length = run.stop := Nat.add_sub_cancel' hle
  rw [abbreviatedAt_blockWord_iff hword, ← hlength, hstop]
  exact ⟨(spells_iff run word).mp h, hends⟩

/--
No run is two words.
-/
theorem word_eq_of_spells {word' : String} (hword : word ∈ blockWords) (hword' : word' ∈ blockWords)
    (h : spells doc run word = true) (h' : spells doc run word' = true) : word = word' := by
  have hinj : ∀ word ∈ blockWords, ∀ word' ∈ blockWords,
      (Utf8.encode word).map UInt8.toNat = (Utf8.encode word').map UInt8.toNat → word = word' := by decide
  exact hinj word hword word' hword' (((spells_iff run word).mp h).symm.trans ((spells_iff run word').mp h'))

theorem isSome_role? (doc : Document) (run : StyleRun) : (role? doc run).isSome
    = (spells doc run "if" || spells doc run "loop" || spells doc run "begin" || spells doc run "end") := by
  unfold role?
  generalize spells doc run "if" = spellsIf
  generalize spells doc run "loop" = spellsLoop
  generalize spells doc run "begin" = spellsBegin
  generalize spells doc run "end" = spellsEnd
  revert spellsIf spellsLoop spellsBegin spellsEnd
  decide

/--
An `elsif` neither opens nor closes a block.
-/
theorem isSome_role?_iff (hword : word ∈ blockWords) (h : spells doc run word = true) :
    (role? doc run).isSome = true ↔ word ≠ "elsif" := by
  have hother (word' : String) (hword' : word' ∈ blockWords) : spells doc run word' = decide (word = word') := by
    rw [Bool.eq_iff_iff, decide_eq_true_eq]
    refine ⟨word_eq_of_spells hword hword' h, ?_⟩
    rintro rfl
    exact h
  rw [isSome_role?, hother "if" (by decide), hother "loop" (by decide), hother "begin" (by decide), hother "end" (by decide)]
  have hwords : ∀ word ∈ blockWords,
      (decide (word = "if") || decide (word = "loop") || decide (word = "begin") || decide (word = "end")) = true ↔ word ≠ "elsif" := by
    decide
  exact hwords word hword

/--
In an `elsif`, nothing else is found that a space or a semicolon does not follow.
-/
theorem not_found_in_elsif (h : spells doc run "elsif" = true) (hle : run.start ≤ run.stop)
    (hends : endsWord doc run.stop = false) {i : Nat} (hi : run.start ≤ i) (hlt : i < run.stop) (hword : word ∈ blockWords) :
    abbreviatedAt doc i word = false := by
  rw [Bool.eq_false_iff]
  intro hfound
  obtain ⟨htext, hdelimiter⟩ := (abbreviatedAt_blockWord_iff hword).mp hfound
  have helsif := (spells_iff run "elsif").mp h
  have hlength : run.length = 5 := length_of_spells h
  have hstop : run.start + run.length = run.stop := Nat.add_sub_cancel' hle
  -- Every word differs from what is left of the `elsif`, or ends with it.
  have hdiffers : ∀ word ∈ blockWords, ∀ k < 5, k + ((Utf8.encode word).map UInt8.toNat).length = 5
      ∨ ∃ j < 5 - k, j < ((Utf8.encode word).map UInt8.toNat).length
        ∧ ((Utf8.encode "elsif").map UInt8.toNat)[k + j]? ≠ ((Utf8.encode word).map UInt8.toNat)[j]? := by decide
  rcases hdiffers word hword (i - run.start) (by omega) with hsame | ⟨j, hj, hinside, hne⟩
  . rw [show i + ((Utf8.encode word).map UInt8.toNat).length = run.stop by omega, hends] at hdelimiter
    cases hdelimiter
  . refine hne ?_
    rw [← helsif, ← htext, getElem?_lowerText (by omega), getElem?_lowerText hinside]
    exact congrArg (fun pos => some (lowerAt doc pos)) (by omega)

theorem first_of_blockWord (hword : word ∈ blockWords) :
    ∃ first rest, (Utf8.encode word).map UInt8.toNat = first :: rest ∧ Code.isLower first = true := by
  simp only [blockWords, List.mem_cons, List.not_mem_nil, or_false] at hword
  rcases hword with rfl | rfl | rfl | rfl | rfl
  all_goals exact ⟨_, _, rfl, by decide⟩

/--
At a terminator, nothing is found.
-/
theorem not_found_of_break (hbreak : doc.text[pos]? = some 0x0A ∨ doc.text[pos]? = some 0x0D) (hword : word ∈ blockWords) :
    abbreviatedAt doc pos word = false := by
  rw [Bool.eq_false_iff]
  intro hfound
  have htext := ((abbreviatedAt_blockWord_iff hword).mp hfound).1
  obtain ⟨first, rest, hcodes, hletter⟩ := first_of_blockWord hword
  rw [hcodes, List.length_cons, lowerText_succ, List.cons.injEq, lowerAt, codeAt, Document.byteAt] at htext
  rcases hbreak with hb | hb
  . rw [hb] at htext
    rw [← htext.1] at hletter
    cases hletter
  . rw [hb] at htext
    rw [← htext.1] at hletter
    cases hletter

theorem IsWhole.relevelled {doc' : Document} (hlevels : doc.Relevelled doc') (h : IsWhole doc run) : IsWhole doc' run := by
  intro i hlt hi word hword hfound
  have hcode : ∀ pos, True → codeAt doc' (pos + 0) = codeAt doc pos := fun pos _ => codeAt_congr hlevels.sameSource.text pos
  have hsame : abbreviatedAt doc' i word = abbreviatedAt doc i word := abbreviatedAt_congr hcode (fun _ _ _ _ _ => trivial) trivial
  obtain ⟨levels, _, rfl⟩ := hlevels
  exact h i hlt hi word hword (hsame ▸ hfound)

theorem EndsClose.relevelled {doc' : Document} {words : List StyleRun} (hlevels : doc.Relevelled doc') (h : EndsClose doc words) :
    EndsClose doc' words := by
  obtain ⟨levels, _, rfl⟩ := hlevels
  induction words with
  | nil => trivial
  | cons word words ih => exact ⟨h.1, ih h.2⟩

theorem isBlank_eq_false {start stop i : Nat} (hle : start ≤ i) (hlt : i < stop) (hi : (codeAt doc i).isSpace = false) :
    isBlank doc start stop = false := by
  rw [isBlank, List.all_eq_false]
  exact ⟨i, List.mem_range'_1.mpr ⟨hle, by omega⟩, by rw [hi]; decide⟩

/--
What a block word starts with is no blank.
-/
theorem isSpace_of_spells (hword : word ∈ blockWords) (h : spells doc run word = true) :
    (codeAt doc run.start).isSpace = false := by
  obtain ⟨first, rest, hcodes, hletter⟩ := first_of_blockWord hword
  have htext := (spells_iff run word).mp h
  rw [length_of_spells h, hcodes, List.length_cons, lowerText_succ, List.cons.injEq, lowerAt] at htext
  rw [Bool.eq_false_iff]
  intro hspace
  have hlow : ∀ c : Nat, Code.isSpace c = true → c ≤ 0x20 := by
    intro c hc
    simp only [Code.isSpace, Bool.or_eq_true, Bool.and_eq_true, beq_iff_eq, decide_eq_true_eq] at hc
    rcases hc with rfl | ⟨_, hle⟩
    . exact Nat.le_refl _
    . exact Nat.le_trans hle (by decide)
  have hspaces : ∀ c ≤ 0x20, (Code.toLower c).isLower = false := by decide
  rw [← htext.1, hspaces _ (hlow _ hspace)] at hletter
  cases hletter

theorem isSpace_of_role (h : (role? doc run).isSome = true) : (codeAt doc run.start).isSpace = false := by
  rw [isSome_role?, Bool.or_eq_true, Bool.or_eq_true, Bool.or_eq_true] at h
  rcases h with ((hif | hloop) | hbegin) | hend
  . exact isSpace_of_spells (by decide) hif
  . exact isSpace_of_spells (by decide) hloop
  . exact isSpace_of_spells (by decide) hbegin
  . exact isSpace_of_spells (by decide) hend

end Words

namespace FoldScan

/--
The depth behind a word, and whether an `end` has been seen there that no `if` or `loop` came behind.
-/
def turn (role : Option Role) (next : Int) (endSeen : Bool) : Int × Bool :=
  match role with
  | some .opens => (if endSeen then next else next + 1, false)
  | some .begins => (next + 1, endSeen)
  | some .ends => (max (next - 1) Level.base.toInt, true)
  | none => (next, endSeen)

/--
A scan at `pos` of the line that `base` started, which has stored no level since.
-/
structure Stands (base : Sweep) (pos : Nat) (next : Int) (endSeen : Bool) (s : FoldScan) : Prop where
  doc : s.sweep.doc = base.doc
  line : s.sweep.line = base.line
  own : s.sweep.own = base.own
  pos : s.pos = pos
  next : s.sweep.next = next
  endSeen : s.endSeen = endSeen

variable {options : FoldOptions} {base : Sweep} {run : StyleRun} {s : FoldScan} {pos stop limit : Nat} {next : Int} {endSeen : Bool}

theorem countWord_of_not_found (hfound : ∀ word ∈ blockWords, abbreviatedAt s.sweep.doc s.pos word = false) :
    s.countWord = (s, 0) := by
  simp only [blockWords, List.mem_cons, List.not_mem_nil, or_false, forall_eq_or_imp, forall_eq] at hfound
  obtain ⟨helsif, hif, hloop, hbegin, hend⟩ := hfound
  unfold countWord
  simp only [helsif, hif, hloop, hbegin, hend, Bool.or_self, Bool.false_eq_true, if_false]

theorem countWord_of_elsif (hfound : abbreviatedAt s.sweep.doc s.pos "elsif" = true) : s.countWord = (s, 4) := by
  unfold countWord
  simp only [hfound, if_true]

/--
At the start of a run, the word that the run is counts.
-/
theorem countWord_of_run (hfound : ∀ word ∈ blockWords, abbreviatedAt s.sweep.doc s.pos word = spells s.sweep.doc run word)
    (helsif : spells s.sweep.doc run "elsif" = false) :
    s.countWord.1.sweep.next = (turn (role? s.sweep.doc run) s.sweep.next s.endSeen).1
      ∧ s.countWord.1.endSeen = (turn (role? s.sweep.doc run) s.sweep.next s.endSeen).2 ∧ s.countWord.2 = 0 := by
  simp only [blockWords, List.mem_cons, List.not_mem_nil, or_false, forall_eq_or_imp, forall_eq] at hfound
  obtain ⟨helsif', hif, hloop, hbegin, hend⟩ := hfound
  rw [helsif] at helsif'
  unfold countWord role?
  simp only [helsif', hif, hloop, hbegin, hend, Bool.false_eq_true, if_false]
  split
  . split
    . next hseen => exact ⟨(if_pos hseen).symm, rfl, rfl⟩
    . next hseen => exact ⟨(if_neg hseen).symm, Bool.eq_false_iff.mpr hseen, rfl⟩
  . split
    . exact ⟨rfl, rfl, rfl⟩
    . split
      . exact ⟨rfl, rfl, rfl⟩
      . exact ⟨rfl, rfl, rfl⟩

/--
Within a line, a step counts the word at its position, and no more.
-/
theorem Stands.step (options : FoldOptions) (h : Stands base pos next endSeen s) (hends : endsLine base.doc.text pos = false) :
    Stands base (pos + (s.count options).2 + 1) (s.count options).1.sweep.next (s.count options).1.endSeen (s.step options) := by
  obtain ⟨_, _, hcount⟩ := recounts_count options s
  have hends : endsLine s.sweep.doc.text s.pos = false := by rw [h.doc, h.pos, hends]
  rw [step_eq, hends, if_neg Bool.false_ne_true, if_neg Bool.false_ne_true]
  refine ⟨?_, ?_, ?_, by rw [h.pos], Sweep.next_see _ _, rfl⟩
  . rw [Sweep.doc_see, hcount]
    exact h.doc
  . rw [Sweep.line_see, hcount]
    exact h.line
  . rw [Sweep.own_see, hcount]
    exact h.own

section Line

variable (hoff : options.comments = false)
include hoff

theorem count_eq (s : FoldScan) :
    s.count options = if s.sweep.doc.styleAt s.pos == Style.word then s.countWord else (s, 0) := by
  have hcommented : s.commented options = s := if_neg (by rw [hoff]; decide)
  rw [count, hcommented]

/--
No `end` goes below the base level.
-/
theorem base_le_next {more : FoldScan → Bool} {doc : Document} (hdoc : doc.WellFormed)
    (hrun : Iterates more (FoldScan.step options) ((folding options).start doc 0) s) : Level.base.toInt ≤ s.sweep.next := by
  refine hrun.invariant (fun s => Level.base.toInt ≤ s.sweep.next) ?_ ?_
  . intro s _ hs
    have hnext : (s.step options).sweep.next = (s.count options).1.sweep.next := (lawful_folding options).next_step 0 s
    rw [hnext, count_eq hoff]
    split
    . unfold countWord
      dsimp only
      split
      . exact hs
      . split
        . split
          . exact hs
          . exact Int.le_add_one hs
        . split
          . exact Int.le_add_one hs
          . split
            . exact Int.le_max_right _ _
            . exact hs
    . exact hs
  . show _ ≤ (doc.levelBefore (doc.lineOf 0)).toInt
    rw [hdoc.lineOf_zero]
    exact Int.le_refl _

/--
Bytes at which no word is found change nothing.
-/
theorem Stands.pass (h : Stands base pos next endSeen s) (hle : pos ≤ stop) (hlimit : stop ≤ limit)
    (hends : ∀ i, pos ≤ i → i < stop → endsLine base.doc.text i = false)
    (hquiet : ∀ i, pos ≤ i → i < stop → base.doc.styleAt i = Style.word → ∀ word ∈ blockWords, abbreviatedAt base.doc i word = false) :
    ∃ t, Iterates ((folding options).more limit) (FoldScan.step options) s t ∧ Stands base stop next endSeen t := by
  induction hk : stop - pos generalizing s pos with
  | zero =>
    obtain rfl : pos = stop := by omega
    exact ⟨s, .refl s, h⟩
  | succ k ih =>
    have hcount : s.count options = (s, 0) := by
      rw [count_eq hoff]
      split
      . next hword =>
        rw [beq_iff_eq, h.doc, h.pos] at hword
        apply countWord_of_not_found
        rw [h.doc, h.pos]
        exact hquiet pos (Nat.le_refl pos) (by omega) hword
      . rfl
    have hstep := h.step options (hends pos (Nat.le_refl pos) (by omega))
    rw [hcount, h.next, h.endSeen] at hstep
    obtain ⟨t, hrun, ht⟩ := ih hstep (by omega) (fun i hi hlt => hends i (by omega) hlt)
      (fun i hi hlt => hquiet i (by omega) hlt) (by omega)
    exact ⟨t, .head (Folding.more_iff.mpr (show s.pos < limit by have := h.pos; omega)) hrun, ht⟩

/--
A run of words is counted at its start, and passed.
-/
theorem Stands.word (h : Stands base run.start next endSeen s) (hlt : run.start < run.stop) (hlimit : run.stop ≤ limit)
    (hends : ∀ i, run.start ≤ i → i < run.stop → endsLine base.doc.text i = false)
    (hstyle : base.doc.styleAt run.start = Style.word) (hdelimiter : (role? base.doc run).isSome = true → endsWord base.doc run.stop = true)
    (hwhole : IsWhole base.doc run) :
    ∃ t, Iterates ((folding options).more limit) (FoldScan.step options) s t
      ∧ Stands base run.stop (turn (role? base.doc run) next endSeen).1 (turn (role? base.doc run) next endSeen).2 t := by
  have hmore : (folding options).more limit s = true := Folding.more_iff.mpr (show s.pos < limit by have := h.pos; omega)
  have hcount : s.count options = s.countWord := by
    rw [count_eq hoff, h.doc, h.pos, if_pos (beq_iff_eq.mpr hstyle)]
  have hstep := h.step options (hends _ (Nat.le_refl _) hlt)
  rw [hcount] at hstep
  cases helsif : spells base.doc run "elsif" with
  | true =>
    have hrole : role? base.doc run = none := by
      rw [← Option.not_isSome_iff_eq_none, isSome_role?_iff (by decide) helsif]
      exact fun hne => hne rfl
    rw [hrole]
    cases hbehind : endsWord base.doc run.stop with
    | true =>
      have hfound := abbreviatedAt_of_spells (by decide) (Nat.le_of_lt hlt) helsif hbehind
      have hlength : run.stop - run.start = 5 := length_of_spells helsif
      rw [countWord_of_elsif (by rw [h.doc, h.pos]; exact hfound), h.next, h.endSeen,
        show run.start + 4 + 1 = run.stop by omega] at hstep
      exact ⟨_, .head hmore (.refl _), hstep⟩
    | false =>
      exact h.pass hoff (Nat.le_of_lt hlt) hlimit hends
        (fun i hi hlt' _ word hword => not_found_in_elsif helsif (Nat.le_of_lt hlt) hbehind hi hlt' hword)
  | false =>
    have hwhole' : ∀ i, run.start ≤ i → i < run.stop → ∀ word ∈ blockWords, abbreviatedAt base.doc i word = true →
        i = run.start ∧ spells base.doc run word = true := by
      intro i hi hlt' word hword hfound
      exact (hwhole i hlt' hi word hword hfound).resolve_right (by rw [helsif]; decide)
    have hfound : ∀ word ∈ blockWords, abbreviatedAt s.sweep.doc s.pos word = spells s.sweep.doc run word := by
      intro word hword
      rw [h.doc, h.pos, Bool.eq_iff_iff]
      constructor
      . exact fun hfound => (hwhole' _ (Nat.le_refl _) hlt word hword hfound).2
      . intro hspells
        refine abbreviatedAt_of_spells hword (Nat.le_of_lt hlt) hspells (hdelimiter ((isSome_role?_iff hword hspells).mpr ?_))
        rintro rfl
        rw [helsif] at hspells
        cases hspells
    obtain ⟨hnext, hseen, hwidth⟩ := countWord_of_run hfound (by rw [h.doc]; exact helsif)
    rw [h.doc, h.next, h.endSeen] at hnext hseen
    rw [hnext, hseen, hwidth] at hstep
    obtain ⟨t, hrun, ht⟩ := hstep.pass hoff (show run.start + 0 + 1 ≤ run.stop by omega) hlimit
      (fun i hi hlt' => hends i (by omega) hlt')
      (fun i hi hlt' _ word hword => by
        rw [Bool.eq_false_iff]
        intro hfound
        have := (hwhole' i (by omega) hlt' word hword hfound).1
        omega)
    exact ⟨t, .head hmore hrun, ht⟩

end Line

/--
What a scan knows at `pos` of the `end` in front of it. If it has seen one, no `if`, `loop` or `end` has come behind;
otherwise something has that is no blank.
-/
structure Linked (doc : Document) (front : List StyleRun) (pos : Nat) (blocks : Blocks) (endSeen : Bool) : Prop where
  le : ∀ stop, blocks.ended = some stop → stop ≤ pos
  seen : endSeen = true → ∃ before word between, front = before ++ word :: between ∧ role? doc word = some .ends
    ∧ blocks.ended = some word.stop ∧ ∀ other ∈ between, role? doc other ≠ some .ends ∧ role? doc other ≠ some .opens
  unseen : endSeen = false → ∀ stop, blocks.ended = some stop → ∃ i, stop ≤ i ∧ i < pos ∧ (codeAt doc i).isSpace = false

section Words

variable {doc : Document} {front rest words : List StyleRun} {blocks : Blocks}

theorem Linked.mono (h : Linked doc front pos blocks endSeen) (hle : pos ≤ stop) : Linked doc front stop blocks endSeen where
  le := fun ended hended => Nat.le_trans (h.le ended hended) hle
  seen := h.seen
  unseen := by
    intro hseen ended hended
    obtain ⟨i, hi, hlt, hblank⟩ := h.unseen hseen ended hended
    exact ⟨i, hi, by omega, hblank⟩

/--
Another word, that is neither an `end` nor one that can go with it.
-/
theorem Linked.other (h : Linked doc front pos blocks endSeen) (hends : role? doc run ≠ some .ends) (hopens : role? doc run ≠ some .opens)
    (depth : Int) : Linked doc (front ++ [run]) pos { blocks with depth } endSeen where
  le := h.le
  seen := by
    intro hseen
    obtain ⟨before, word, between, hfront, hword, hended, hbetween⟩ := h.seen hseen
    refine ⟨before, word, between ++ [run], by rw [hfront, List.append_assoc]; rfl, hword, hended, ?_⟩
    intro other hother
    rcases List.mem_append.mp hother with hmem | hmem
    . exact hbetween other hmem
    . rw [List.mem_singleton.mp hmem]
      exact ⟨hends, hopens⟩
  unseen := h.unseen

theorem endsClose_append (h : EndsClose doc (front ++ words)) : EndsClose doc words := by
  induction front with
  | nil => exact h
  | cons word front ih => exact ih h.2

/--
An `if` or `loop` that comes behind an `end` with none of these words between them is the next one.
-/
theorem isBlank_of_endsClose {word run : StyleRun} {between : List StyleRun}
    (h : EndsClose doc (front ++ word :: (between ++ run :: rest))) (hends : role? doc word = some .ends)
    (hopens : role? doc run = some .opens)
    (hbetween : ∀ other ∈ between, role? doc other ≠ some .ends ∧ role? doc other ≠ some .opens) :
    isBlank doc word.stop run.start = true := by
  refine (endsClose_append h).1 hends run ?_ hopens
  have hnone : between.find? (fun run => role? doc run == some .ends || role? doc run == some .opens) = none := by
    rw [List.find?_eq_none]
    intro other hmem
    obtain ⟨hends', hopens'⟩ := hbetween other hmem
    rw [beq_eq_false_iff_ne.mpr hends', beq_eq_false_iff_ne.mpr hopens']
    decide
  rw [Option.mem_def, List.find?_append, hnone, Option.none_or, List.find?_cons_of_pos]
  rw [hopens]
  decide

/--
The rule and the pass do the same at a word.
-/
theorem Linked.count (h : Linked doc front run.start blocks endSeen) (hlt : run.start < run.stop) (hclose : EndsClose doc words)
    (hwords : words = front ++ run :: rest) :
    (blocks.count doc run).depth = (turn (role? doc run) blocks.depth endSeen).1
      ∧ Linked doc (front ++ [run]) run.stop (blocks.count doc run) (turn (role? doc run) blocks.depth endSeen).2 := by
  unfold Blocks.count
  cases hrole : role? doc run with
  | none => exact ⟨rfl, (h.other (by rw [hrole]; decide) (by rw [hrole]; decide) blocks.depth).mono (Nat.le_of_lt hlt)⟩
  | some role =>
    cases role with
    | begins => exact ⟨rfl, (h.other (by rw [hrole]; decide) (by rw [hrole]; decide) _).mono (Nat.le_of_lt hlt)⟩
    | ends =>
      refine ⟨rfl, ⟨?_, fun _ => ⟨front, run, [], rfl, hrole, rfl, by simp⟩, nofun⟩⟩
      intro stop hstop
      exact Nat.le_of_eq (Option.some.inj hstop).symm
    | opens =>
      have hletter : (codeAt doc run.start).isSpace = false := isSpace_of_role (by rw [hrole]; rfl)
      -- The word itself is no blank for those behind it.
      have hunseen : ∀ stop, blocks.ended = some stop → ∃ i, stop ≤ i ∧ i < run.stop ∧ (codeAt doc i).isSpace = false :=
        fun stop hstop => ⟨run.start, h.le stop hstop, hlt, hletter⟩
      have hle : ∀ stop, blocks.ended = some stop → stop ≤ run.stop :=
        fun stop hstop => Nat.le_trans (h.le stop hstop) (Nat.le_of_lt hlt)
      cases endSeen with
      | true =>
        obtain ⟨before, word, between, hfront, hword, hended, hbetween⟩ := h.seen rfl
        have hblank : isBlank doc word.stop run.start = true := by
          rw [hwords, hfront, List.append_assoc] at hclose
          exact isBlank_of_endsClose hclose hword hrole hbetween
        have hany : blocks.ended.any (isBlank doc · run.start) = true := by
          rw [hended]
          exact hblank
        simp only [hany, if_true]
        exact ⟨rfl, ⟨hle, nofun, fun _ => hunseen⟩⟩
      | false =>
        have hany : blocks.ended.any (isBlank doc · run.start) = false := by
          cases hended : blocks.ended with
          | none => rfl
          | some stop =>
            obtain ⟨i, hi, hi', hblank⟩ := h.unseen rfl stop hended
            exact isBlank_eq_false hi hi' hblank
        simp only [hany, Bool.false_eq_true, if_false]
        exact ⟨rfl, ⟨hle, nofun, fun _ => hunseen⟩⟩

end Words

section Line

variable (hoff : options.comments = false)
include hoff

/--
Behind its runs, a scan has counted the words of a line.
-/
theorem Stands.runs {front words runs : List StyleRun} {blocks : Blocks} (h : Stands base pos blocks.depth endSeen s)
    (hlinked : Linked base.doc front pos blocks endSeen) (htiles : StyleRun.Tiles base.doc.styleAt pos stop runs)
    (hwords : words = front ++ runs.filter (·.style == Style.word)) (hlimit : stop ≤ limit)
    (hends : ∀ i, pos ≤ i → i < stop → endsLine base.doc.text i = false)
    (hdelimited : ∀ run ∈ words, (role? base.doc run).isSome = true → endsWord base.doc run.stop = true)
    (hwhole : ∀ run ∈ words, IsWhole base.doc run) (hclose : EndsClose base.doc words) :
    ∃ t seen, Iterates ((folding options).more limit) (FoldScan.step options) s t
      ∧ Stands base stop ((runs.filter (·.style == Style.word)).foldl (Blocks.count base.doc) blocks).depth seen t := by
  induction runs generalizing s front pos blocks endSeen with
  | nil =>
    obtain rfl : pos = stop := htiles
    exact ⟨s, endSeen, .refl s, h⟩
  | cons run runs ih =>
    obtain ⟨rfl, hlt, hstyle, hrest⟩ := htiles
    have hle := hrest.le
    have hends' : ∀ i, run.stop ≤ i → i < stop → endsLine base.doc.text i = false := fun i hi => hends i (by omega)
    cases hword : run.style == Style.word with
    | true =>
      rw [List.filter_cons, hword, if_pos rfl] at hwords ⊢
      have hmem : run ∈ words := by
        rw [hwords]
        exact List.mem_append_right front List.mem_cons_self
      obtain ⟨hdepth, hlinked'⟩ := hlinked.count hlt hclose hwords
      obtain ⟨t, hrun, ht⟩ := h.word hoff hlt (Nat.le_trans hle hlimit) (fun i hi hi' => hends i hi (by omega))
        ((hstyle _ (Nat.le_refl _) hlt).trans (beq_iff_eq.mp hword)) (hdelimited run hmem) (hwhole run hmem)
      rw [← hdepth] at ht
      obtain ⟨u, seen, hrun', hu⟩ := ih ht hlinked' hrest (by rw [hwords, List.append_assoc]; rfl) hends'
      exact ⟨u, seen, hrun.trans hrun', hu⟩
    | false =>
      rw [List.filter_cons, hword, if_neg Bool.false_ne_true] at hwords ⊢
      obtain ⟨t, hrun, ht⟩ := h.pass hoff (Nat.le_of_lt hlt) (Nat.le_trans hle hlimit) (fun i hi hi' => hends i hi (by omega))
        (fun i hi hi' hother => by
          rw [hstyle i hi hi'] at hother
          rw [hother, beq_self_eq_true] at hword
          cases hword)
      obtain ⟨u, seen, hrun', hu⟩ := ih ht (hlinked.mono (Nat.le_of_lt hlt)) hrest hwords hends'
      exact ⟨u, seen, hrun.trans hrun', hu⟩

/--
At the terminator, the scan stands in front of the last byte of the line with what it has counted.
-/
theorem Stands.terminator {line : Nat} (h : Stands base (base.doc.lineEnd line) next endSeen s) (hdoc : base.doc.WellFormed)
    (hline : line + 1 < base.doc.lineCount) :
    ∃ t, Iterates ((folding options).more (base.doc.lineStart (line + 1))) (FoldScan.step options) s t
      ∧ Stands base (base.doc.lineStart (line + 1) - 1) next endSeen t ∧ (t.count options) = (t, 0) := by
  obtain ⟨hle, hlt, hbreak⟩ := hdoc.lineEnd_spec hline
  have hquiet : ∀ i, base.doc.lineEnd line ≤ i → i < base.doc.lineStart (line + 1) → ∀ word ∈ blockWords,
      abbreviatedAt base.doc i word = false := fun i hi hi' word hword => not_found_of_break (hbreak i hi hi') hword
  obtain ⟨t, hrun, ht⟩ := h.pass hoff (Nat.le_sub_one_of_lt hlt) (Nat.sub_le (base.doc.lineStart (line + 1)) 1)
    (fun i hi hi' => by
      rw [Bool.eq_false_iff, ne_eq, hdoc.endsLine_iff hline (by omega) (by omega)]
      omega)
    (fun i hi hi' _ => hquiet i hi (by omega))
  refine ⟨t, hrun, ht, ?_⟩
  rw [count_eq hoff]
  split
  . apply countWord_of_not_found
    rw [ht.doc, ht.pos]
    exact hquiet _ (by omega) (by omega)
  . rfl

/--
A line that a scan has gone over is stored with the depth that it started with, and leaves the one that its words lead to.
-/
theorem Stands.exists_line {line : Nat} (h : Stands base (base.doc.lineStart line) base.own false s) (hdoc : base.doc.WellFormed)
    (hbase : base.line = line) (hline : line + 1 < base.doc.lineCount)
    (hdelimited : ∀ run ∈ lineWords base.doc line, (role? base.doc run).isSome = true → endsWord base.doc run.stop = true)
    (hwhole : ∀ run ∈ lineWords base.doc line, IsWhole base.doc run) (hclose : EndsClose base.doc (lineWords base.doc line)) :
    ∃ t, Iterates ((folding options).more (base.doc.lineStart (line + 1))) (FoldScan.step options) s t
      ∧ t.pos = base.doc.lineStart (line + 1)
      ∧ t.sweep.next = ((lineWords base.doc line).foldl (Blocks.count base.doc) ⟨base.own, none⟩).depth
      ∧ ∃ visible, t.sweep.doc.level line = .compose (Int32.ofInt base.own) (Int32.ofInt t.sweep.next) visible options.compact := by
  obtain ⟨hle, hlt, _⟩ := hdoc.lineEnd_spec hline
  have hlinked : Linked base.doc [] (base.doc.lineStart line) ⟨base.own, none⟩ false := ⟨nofun, nofun, fun _ => nofun⟩
  have hwords : lineWords base.doc line = [] ++ (base.doc.lineRuns line).filter (·.style == Style.word) := rfl
  obtain ⟨t, seen, hrun, ht⟩ := Stands.runs hoff h hlinked (hdoc.tiles_lineRuns hline) hwords (Nat.le_of_lt hlt)
    (fun i hi hi' => by
      rw [Bool.eq_false_iff, ne_eq, hdoc.endsLine_iff hline hi (by omega)]
      omega)
    hdelimited hwhole hclose
  obtain ⟨u, hrun', hu, hcount⟩ := ht.terminator hoff hdoc hline
  have hends : endsLine u.sweep.doc.text u.pos = true := by
    rw [hu.doc, hu.pos]
    exact hdoc.endsLine_of_lineStart_succ hline
  have hmore : (folding options).more (base.doc.lineStart (line + 1)) u = true :=
    Folding.more_iff.mpr (show u.pos < _ by rw [hu.pos]; omega)
  have hstep := step_eq options u
  rw [hcount, if_pos hends, if_pos hends] at hstep
  have hnext : (u.step options).sweep.next = u.sweep.next := by
    rw [hstep]
    exact Sweep.next_see _ _
  refine ⟨u.step options, (hrun.trans hrun').tail hmore, ?_, hnext.trans hu.next, u.sweep.visible, ?_⟩
  . rw [hstep, hu.pos]
    show _ - 1 + 0 + 1 = _
    omega
  . rw [hnext, hstep, Sweep.doc_see, ← hu.own, ← hbase, ← hu.line]
    show (u.sweep.doc.setLevel u.sweep.line _).level u.sweep.line = _
    apply Document.level_setLevel
    . rw [hu.doc]
      exact hdoc
    . rw [hu.doc, hu.line, hbase]
      exact Nat.lt_of_succ_lt hline

end Line

end FoldScan

/--
What a pass stores for a line is the depth that it starts with, and behind it the one that its words lead to.
-/
theorem level_fold {options : FoldOptions} (hoff : options.comments = false) {doc : Document} (hdoc : doc.WellFormed) {line : Nat}
    (hline : line + 1 < doc.lineCount) (hfits : (folding options).LevelsFit doc 0 doc.size)
    (hdelimited : ∀ run ∈ lineWords doc line, (role? doc run).isSome = true → endsWord doc run.stop = true)
    (hwhole : ∀ run ∈ lineWords doc line, IsWhole doc run) (hclose : EndsClose doc (lineWords doc line)) :
    let folded := (folding options).fold doc 0 doc.size
    let own := (folded.levelBefore line).toInt
    (folded.level line).next.toInt = ((lineWords doc line).foldl (Blocks.count doc) ⟨own, none⟩).depth
      ∧ Level.base.toInt ≤ own ∧ ∃ next visible, folded.level line = .compose (Int32.ofInt own) next visible options.compact := by
  intro folded own
  have h := lawful_folding options
  obtain ⟨s, hrun, hs, hstart, _, hnext⟩ :=
    h.exists_start hdoc (Nat.lt_of_succ_lt hline) (hdoc.lineStart_le_size line) hfits
  obtain ⟨t, hrun', ht, hstart', hlevels, hnext'⟩ := h.exists_start hdoc hline (hdoc.lineStart_le_size (line + 1)) hfits
  have hwell := hs.relevelled.sameSource.wellFormed hdoc
  have hlineOf := (hdoc.startsLine_lineStart (Nat.lt_of_succ_lt hline)).2
  have hbase : s.sweep.line = line := by
    rw [show s.sweep.line = _ from hs.line, hstart]
    exact hlineOf
  have hown : s.sweep.own = own := by
    refine Eq.trans ?_ hnext
    rw [hstart]
    rfl
  have hstands : FoldScan.Stands s.sweep (doc.lineStart line) s.sweep.own false s :=
    ⟨rfl, rfl, rfl, by rw [hstart]; rfl, by rw [hstart]; rfl, by rw [hstart]; rfl⟩
  have hwhole' : ∀ run ∈ lineWords doc line, IsWhole s.sweep.doc run := fun run hmem => (hwhole run hmem).relevelled hs.relevelled
  have hclose' : EndsClose s.sweep.doc (lineWords doc line) := hclose.relevelled hs.relevelled
  obtain ⟨levels, _, hlevelled⟩ := hs.relevelled
  have hlevelled : s.sweep.doc = { doc with levels } := hlevelled
  have hstands' : FoldScan.Stands s.sweep (s.sweep.doc.lineStart line) s.sweep.own false s := by
    rw [hlevelled]
    exact hstands
  obtain ⟨u, hrest, hpos, hdepth, visible, hlevel⟩ := FoldScan.Stands.exists_line hoff hstands' hwell hbase
    (by rw [hlevelled]; exact hline) (by rw [hlevelled]; exact hdelimited)
    (by rw [hlevelled] at hwhole' ⊢; exact hwhole') (by rw [hlevelled] at hclose' ⊢; exact hclose')
  have hstop : s.sweep.doc.lineStart (line + 1) = doc.lineStart (line + 1) := by
    rw [hlevelled]
    rfl
  rw [hstop] at hrest hpos
  have hlt := hdoc.lineStart_lt_succ hline
  have heq : u = t := by
    have hfront := hrun.mono (fun s hmore => Folding.more_iff.mpr (Nat.lt_trans (Folding.more_iff.mp hmore) hlt))
    refine (hfront.trans hrest).end_unique (Folding.not_more_iff.mpr (Nat.le_of_eq hpos.symm)) hrun' (Folding.not_more_iff.mpr ?_)
    rw [hstart']
    exact Nat.le_refl _
  subst heq
  have hlast : folded.level line = u.sweep.doc.level line := hlevels line (Nat.lt_succ_self line)
  have hwords : (lineWords s.sweep.doc line).foldl (Blocks.count s.sweep.doc) ⟨s.sweep.own, none⟩
      = (lineWords doc line).foldl (Blocks.count doc) ⟨own, none⟩ := by
    rw [hown, hlevelled]
    rfl
  rw [hwords] at hdepth
  rw [hown] at hlevel
  refine ⟨?_, le_of_le_of_eq (FoldScan.base_le_next hoff hdoc hrun) hnext, Int32.ofInt u.sweep.next, visible, hlast.trans hlevel⟩
  rw [← hdepth, show u.sweep.next = _ from hnext', Document.levelBefore, if_pos (Nat.succ_pos line), Nat.add_sub_cancel]

/--
Without comments, the depth behind a line is what its words make of the depth of the line: an `if`, `loop` or `begin` opens a
block, an `end` closes one, an `if` or `loop` right behind an `end` does not count, and no other word does. A space, a
semicolon or the end of the line has to follow those words, no other of them may stand in a run, and an `end` may not be left
open for an `if` or `loop` further on.
-/
theorem next_level_eq_words (session : Session) (hsession : session.lexer = lexer) (doc : Document) (hdoc : doc.WellFormed)
    (hoff : (FoldOptions.read doc.options).comments = false) (hfits : LevelsFit doc) (line : Nat) (hline : line + 1 < doc.lineCount)
    (hdelimited : ∀ run ∈ lineWords doc line, (role? doc run).isSome = true → endsWord doc run.stop = true)
    (hwhole : ∀ run ∈ lineWords doc line, IsWhole doc run) (hclose : EndsClose doc (lineWords doc line)) :
    let folded := session.fold doc 0 doc.size
    (folded.levelBefore line).toInt ≤ 0x0FFF →
      (folded.level line).next.toInt = ((lineWords doc line).foldl (Blocks.count doc) ⟨(folded.level line).number.toInt, none⟩).depth := by
  intro folded hown
  have hsize : 0 < doc.size := Nat.lt_of_lt_of_le (hdoc.lineStart_succ_pos hline) (hdoc.lineStart_le_size _)
  have hfold : folded = (folding (.read doc.options)).fold doc 0 doc.size :=
    Folding.Drives.fold_eq (drives_folding hsession doc.options) rfl hdoc startsLine_zero hsize (.inr rfl)
  obtain ⟨hnext, hbase, next, visible, hlevel⟩ := level_fold hoff hdoc hline hfits hdelimited hwhole hclose
  rw [← hfold] at hnext hbase hlevel
  rw [hnext, hlevel, Level.number_compose (Int.le_trans (by decide) hbase) hown]

/--
A line that closes an `if`, goes over an `elsif`, and opens a `loop`.
-/
theorem next_level_eq_words_end_if :
    let session := Session.ofLexer lexer
    let text := "begin if\n end  If;elsif x loop\ny".toUTF8.data
    let styles := #[5, 5, 5, 5, 5, 0, 5, 5, 0, 0, 5, 5, 5, 0, 0, 5, 5, 10, 5, 5, 5, 5, 5, 0, 11, 0, 5, 5, 5, 5, 0, 5]
    let doc := { Document.fresh text .singleByte .empty with styles }
    let folded := session.fold doc 0 doc.size
    (folded.level 1).number.toInt = 0x402
      ∧ (folded.level 1).next.toInt = ((lineWords doc 1).foldl (Blocks.count doc) ⟨0x402, none⟩).depth
      ∧ (lineWords doc 1).map (role? doc) = [some .ends, some .opens, none, some .opens] := by
  intro session text styles doc folded
  have hdoc : doc.WellFormed := ⟨rfl, by decide +kernel, Array.size_replicate, Array.size_replicate⟩
  have hfits : LevelsFit doc := Folding.levelsFit_of_holdsAlong (show holdsAlong _ _ _ 33 _ = true by decide +kernel)
  have hnumber : (folded.level 1).number.toInt = 0x402 := by decide +kernel
  have hnext := next_level_eq_words session rfl doc hdoc (by decide +kernel) hfits 1 (by decide +kernel) (by decide +kernel)
    (by decide +kernel) (by decide +kernel) (by decide +kernel)
  exact ⟨hnumber, hnext.trans (by rw [hnumber]), by decide +kernel⟩

/--
Without the last two conditions, this is not so: a word that ends in `if` opens a block, and an `end` takes the `if` of the
next statement for its own.
-/
theorem next_level_ne_words :
    let session := Session.ofLexer lexer
    let word := { Document.fresh "elseif x\ny".toUTF8.data .singleByte .empty with styles := #[5, 5, 5, 5, 5, 5, 0, 11, 0, 5] }
    let left := { Document.fresh "end; if x\ny".toUTF8.data .singleByte .empty with styles := #[5, 5, 5, 10, 0, 5, 5, 0, 11, 0, 5] }
    (word.WellFormed ∧ (FoldOptions.read word.options).comments = false ∧ LevelsFit word ∧ 1 < word.lineCount
        ∧ (∀ run ∈ lineWords word 0, (role? word run).isSome = true → endsWord word run.stop = true)
        ∧ ((session.fold word 0 word.size).level 0).next.toInt
          ≠ ((lineWords word 0).foldl (Blocks.count word) ⟨((session.fold word 0 word.size).level 0).number.toInt, none⟩).depth)
      ∧ left.WellFormed ∧ (FoldOptions.read left.options).comments = false ∧ LevelsFit left ∧ 1 < left.lineCount
        ∧ (∀ run ∈ lineWords left 0, (role? left run).isSome = true → endsWord left run.stop = true)
        ∧ ((session.fold left 0 left.size).level 0).next.toInt
          ≠ ((lineWords left 0).foldl (Blocks.count left) ⟨((session.fold left 0 left.size).level 0).number.toInt, none⟩).depth := by
  intro session word left
  refine ⟨⟨⟨rfl, by decide +kernel, Array.size_replicate, Array.size_replicate⟩, by decide +kernel, ?_, by decide +kernel,
    by decide +kernel, by decide +kernel⟩, ⟨rfl, by decide +kernel, Array.size_replicate, Array.size_replicate⟩, by decide +kernel, ?_,
    by decide +kernel, by decide +kernel, by decide +kernel⟩
  . exact Folding.levelsFit_of_holdsAlong (show holdsAlong _ _ _ 11 _ = true by decide +kernel)
  . exact Folding.levelsFit_of_holdsAlong (show holdsAlong _ _ _ 12 _ = true by decide +kernel)

end Highlight.Sql
