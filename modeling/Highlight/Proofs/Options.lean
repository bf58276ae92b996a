import Highlight.Proofs.Session.Definition

/-!
Options as numbers. Whatever integer of 32 bits a definition gives for an option, its text is read as that integer again,
and a longer number is read as what is left of it in 32 bits.
-/

namespace Highlight.Options

variable {blanks digits tail : List Char} {number : Nat} {fallback : Int32}

section Numbers

/--
Decimal digits of a number, which can have zeros in front.
-/
structure IsDecimal (digits : List Char) (number : Nat) : Prop where
  ne_nil : digits ≠ []
  isDigit : ∀ c ∈ digits, c.isDigit = true
  value : Nat.ofDigitChars 10 digits 0 = number

theorem isDecimal_toDigits (number : Nat) : IsDecimal (Nat.toDigits 10 number) number where
  ne_nil := Nat.toDigits_ne_nil
  isDigit _ hc := Nat.isDigit_of_mem_toDigits (by decide) (by decide) hc
  value := Nat.ofDigitChars_toDigits (by decide) (by decide)

/--
Adding digit after digit in 32 bits leaves of the number what 32 bits hold.
-/
theorem digitsValue_eq (digits : List Char) : digitsValue digits = Int32.ofNat (Nat.ofDigitChars 10 digits 0) := by
  have hfold (start : Nat) :
      digits.foldl (fun value c => value * 10 + Int32.ofNat (c.toNat - 0x30)) (Int32.ofNat start)
        = Int32.ofNat (Nat.ofDigitChars 10 digits start) := by
    induction digits generalizing start with
    | nil => rfl
    | cons c digits ih =>
      have hstep : Int32.ofNat start * 10 + Int32.ofNat (c.toNat - 0x30) = Int32.ofNat (10 * start + (c.toNat - '0'.toNat)) := by
        rw [Int32.ofNat_add, Int32.ofNat_mul, Int32.mul_comm]
        rfl
      rw [List.foldl_cons, hstep, ih, Nat.ofDigitChars_cons]
  exact hfold 0

theorem takeWhile_digits (hdigits : ∀ c ∈ digits, c.isDigit = true) (htail : ∀ c ∈ tail.head?, c.isDigit = false) :
    (digits ++ tail).takeWhile Char.isDigit = digits := by
  rw [List.takeWhile_append_of_pos hdigits]
  cases tail with
  | nil => simp
  | cons c tail => simp [htail c rfl]

theorem isDigit_iff {c : Char} : c.isDigit = true ↔ 48 ≤ c.toNat ∧ c.toNat ≤ 57 := by
  simp [Char.isDigit, UInt32.le_iff_toNat_le, ← Char.toNat_val]

theorem not_isBlank_of_isDigit {c : Char} (h : c.isDigit = true) : Blank.isBlank c = false := by
  rw [isDigit_iff] at h
  simp only [Blank.isBlank, Blank.ranges, List.any_cons, List.any_nil, Bool.or_false, Bool.or_eq_false_iff,
    Bool.and_eq_false_iff, decide_eq_false_iff_not]
  omega

theorem trimLeft_append {first : Char} {rest : List Char} (hblanks : ∀ c ∈ blanks, Blank.isBlank c = true)
    (hfirst : Blank.isBlank first = false) : Blank.trimLeft (blanks ++ first :: rest) = first :: rest := by
  unfold Blank.trimLeft
  rw [List.dropWhile_append_of_pos hblanks, List.dropWhile_cons_of_neg]
  simp [hfirst]

theorem readInt_of_ne_nil {text : List Char} (h : text ≠ []) (fallback : Int32) :
    readInt (some (String.ofList text)) fallback = leadingInt (String.ofList text) := by
  have hempty : (String.ofList text).isEmpty = false := by
    rw [Bool.eq_false_iff, ne_eq, String.isEmpty_iff]
    simp [h]
  simp [readInt, hempty]

/--
How a number is read: with blanks in front, with a sign or without one, and whatever follows its digits.
-/
theorem readInt_decimal (hblanks : ∀ c ∈ blanks, Blank.isBlank c = true) (hdigits : IsDecimal digits number)
    (htail : ∀ c ∈ tail.head?, c.isDigit = false) (fallback : Int32) :
    readInt (some (String.ofList (blanks ++ (digits ++ tail)))) fallback = Int32.ofInt number
      ∧ readInt (some (String.ofList (blanks ++ '+' :: (digits ++ tail)))) fallback = Int32.ofInt number
      ∧ readInt (some (String.ofList (blanks ++ '-' :: (digits ++ tail)))) fallback = Int32.ofInt (-number) := by
  have hvalue : digitsValue ((digits ++ tail).takeWhile Char.isDigit) = Int32.ofInt number := by
    rw [takeWhile_digits hdigits.isDigit htail, digitsValue_eq, hdigits.value, Int32.ofInt_eq_ofNat]
  refine ⟨?_, ?_, ?_⟩
  . obtain ⟨c, rest, rfl⟩ := List.exists_cons_of_ne_nil hdigits.ne_nil
    have hc : c.isDigit = true := hdigits.isDigit c List.mem_cons_self
    rw [readInt_of_ne_nil (by simp), leadingInt, String.toList_ofList, List.cons_append,
      trimLeft_append hblanks (not_isBlank_of_isDigit hc)]
    -- A digit is no sign.
    split
    . next heq =>
      rw [(List.cons_eq_cons.mp heq).1] at hc
      exact absurd hc (by decide)
    . next heq =>
      rw [(List.cons_eq_cons.mp heq).1] at hc
      exact absurd hc (by decide)
    . exact hvalue
  . rw [readInt_of_ne_nil (by simp), leadingInt, String.toList_ofList, trimLeft_append hblanks (by decide)]
    exact hvalue
  . rw [readInt_of_ne_nil (by simp), leadingInt, String.toList_ofList, trimLeft_append hblanks (by decide), Int32.ofInt_neg]
    exact congrArg (- ·) hvalue

theorem readInt_toString (value : Int) (fallback : Int32) : readInt (some (toString value)) fallback = Int32.ofInt value := by
  have hread (number : Nat) := @readInt_decimal [] (Nat.toDigits 10 number) [] number (by simp) (isDecimal_toDigits number) (by simp) fallback
  cases value with
  | ofNat number =>
    have htext : toString (Int.ofNat number) = String.ofList ([] ++ (Nat.toDigits 10 number ++ [])) := by
      rw [← String.toList_inj, String.toList_ofList, Int.toString_eq_repr]
      simp [Int.repr]
    rw [htext, (hread number).1]
    rfl
  | negSucc number =>
    have htext : toString (Int.negSucc number) = String.ofList ([] ++ '-' :: (Nat.toDigits 10 (number + 1) ++ [])) := by
      rw [← String.toList_inj, String.toList_ofList, Int.toString_eq_repr]
      simp [Int.repr]
    rw [htext, (hread (number + 1)).2.2]
    rfl

end Numbers

section Applied

variable {session : Session} {doc : Document} {definition : Definition} {key : String} {value : Int} {n : Int32}

theorem get?_applyOptions (session : Session) (doc : Document) (key : String) :
    (session.applyOptions doc).options.get? key = (session.options.get? key).or (doc.options.get? key) := by
  unfold Session.applyOptions
  exact Dict.get?_extend _ _ _

theorem get?_ofDefinition (h : Session.ofDefinition definition = .ok session) (key : String) :
    session.options.get? key = (definition.options.get? key).map OptionValue.toText := by
  obtain ⟨_, _, _, hcarries⟩ := Session.carries_of_ofDefinition h
  exact hcarries.option key

theorem getInt_of_int (h : session.options.get? key = some (OptionValue.int value).toText) (doc : Document) (fallback : Int32) :
    (session.applyOptions doc).options.getInt key fallback = Int32.ofInt value := by
  rw [getInt, get?_applyOptions, h, Option.some_or]
  exact readInt_toString value fallback

/--
An integer of 32 bits among the options of a definition is that integer in every document of its session, and it stands for
whether it is not 0. The other options of the document stay. The number that a text begins with is read in 32 bits, with
blanks in front of it and whatever follows.
-/
theorem integers_survive :
    (∀ (definition : Definition) (session : Session) (doc : Document) (key : String) (n : Int32),
        Session.ofDefinition definition = .ok session → definition.options.get? key = some (.int n.toInt) →
          (∀ fallback : Int32, (session.applyOptions doc).options.getInt key fallback = n)
            ∧ ∀ fallback : Bool, (session.applyOptions doc).options.getFlag key fallback = (n != 0))
      ∧ (∀ (session : Session) (doc : Document) (key : String), session.options.get? key = none →
          (session.applyOptions doc).options.get? key = doc.options.get? key)
      ∧ ∀ (blanks digits tail : List Char) (number : Nat) (fallback : Int32),
          (∀ c ∈ blanks, Blank.isBlank c = true) → IsDecimal digits number → (∀ c ∈ tail.head?, c.isDigit = false) →
            (readInt (some (String.ofList (blanks ++ (digits ++ tail)))) fallback).toInt = Int.bmod number 4294967296
              ∧ (readInt (some (String.ofList (blanks ++ '+' :: (digits ++ tail)))) fallback).toInt = Int.bmod number 4294967296
              ∧ (readInt (some (String.ofList (blanks ++ '-' :: (digits ++ tail)))) fallback).toInt
                = Int.bmod (-number) 4294967296 := by
  refine ⟨?_, ?_, ?_⟩
  . intro definition session doc key n hsession hkey
    have htext : session.options.get? key = some (OptionValue.int n.toInt).toText := by
      rw [get?_ofDefinition hsession, hkey]
      rfl
    have hint (fallback : Int32) : (session.applyOptions doc).options.getInt key fallback = n := by
      rw [getInt_of_int htext, Int32.ofInt_toInt]
    refine ⟨hint, fun fallback => ?_⟩
    rw [getFlag, hint]
  . intro session doc key hkey
    rw [get?_applyOptions, hkey, Option.none_or]
  . intro blanks digits tail number fallback hblanks hdigits htail
    obtain ⟨hplain, hplus, hminus⟩ := readInt_decimal hblanks hdigits htail fallback
    rw [hplain, hplus, hminus]
    exact ⟨Int32.toInt_ofInt, Int32.toInt_ofInt, Int32.toInt_ofInt⟩

/--
The smallest integer, which is too large for 32 bits without its sign, in a document with an option of its own.
-/
theorem integers_survive_smallest :
    let definition : Definition := ⟨"sql", none, [], .empty, .ofList [("fold", .int (-2147483648))]⟩
    let doc : Document := { Document.ofText #[] with options := .ofList [("fold", "1"), ("lang", "x")] }
    (∃ session, Session.ofDefinition definition = .ok session
        ∧ (session.applyOptions doc).options.getInt "fold" 7 = -2147483648
        ∧ (session.applyOptions doc).options.getFlag "fold" false = true
        ∧ (session.applyOptions doc).options.get? "lang" = some "x")
      ∧ (readInt (some (String.ofList "\t -4294967299.5".toList)) 0).toInt = -3 := by
  intro definition doc
  obtain ⟨hint, hother, hread⟩ := integers_survive
  constructor
  . have hlanguage : SameButForCase Language.sql.lexer.name definition.lexerName := by decide +kernel
    obtain ⟨session, hsession, hcarries⟩ := Session.exists_carries hlanguage fun key hkey => by
      obtain ⟨source, hsource⟩ := hkey.exists_mem
      cases hsource
    obtain ⟨hint, hflag⟩ := hint definition session doc "fold" (-2147483648) hsession (by decide +kernel)
    refine ⟨session, hsession, hint 7, ?_, ?_⟩
    . rw [hflag]
      rfl
    . rw [hother session doc "lang"]
      . decide +kernel
      . rw [hcarries.option]
        decide +kernel
  . have hblanks : ∀ c ∈ "\t ".toList, Blank.isBlank c = true := List.all_eq_true.mp (by decide)
    have hdecimal : IsDecimal "4294967299".toList 4294967299 := ⟨by decide, List.all_eq_true.mp (by decide), by decide⟩
    have htail : ∀ c ∈ ".5".toList.head?, c.isDigit = false := by
      rintro c ⟨⟩
      rfl
    exact (hread "\t ".toList "4294967299".toList ".5".toList 4294967299 0 hblanks hdecimal htail).2.2

end Applied

end Highlight.Options
