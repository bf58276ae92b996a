/-!
Blanks in the sense of the Unicode property White_Space, and the ways a text is cut at them.
-/

namespace Highlight.Blank

/--
The ranges of White_Space.
-/
def ranges : List (Nat × Nat) :=
  [(0x09, 0x0D), (0x20, 0x20), (0x85, 0x85), (0xA0, 0xA0), (0x1680, 0x1680), (0x2000, 0x200A),
   (0x2028, 0x2029), (0x202F, 0x202F), (0x205F, 0x205F), (0x3000, 0x3000)]

def isBlank (c : Char) : Bool :=
  ranges.any fun range => range.1 ≤ c.toNat && c.toNat ≤ range.2

theorem isBlank_of_isWhitespace {c : Char} (h : c.isWhitespace) : isBlank c := by
  simp only [Char.isWhitespace, Bool.or_eq_true, decide_eq_true_eq] at h
  rcases h with ((rfl | rfl) | rfl) | rfl <;> decide

/--
The maximal parts of a text without blanks.
-/
def splitWords (text : List Char) : List (List Char) :=
  match _h : text.dropWhile isBlank with
  | [] => []
  | c :: rest => (c :: rest.takeWhile (!isBlank ·)) :: splitWords (rest.dropWhile (!isBlank ·))
termination_by text.length
decreasing_by
  have hdrop := (List.dropWhile_suffix isBlank (l := text)).length_le
  have hrest := (List.dropWhile_suffix (!isBlank ·) (l := rest)).length_le
  rw [_h, List.length_cons] at hdrop
  omega

/--
The words of a text, in order and with their repetitions.
-/
def words (text : String) : List String :=
  (splitWords text.toList).map String.ofList

/--
A text without the blanks it starts with.
-/
def trimLeft (text : List Char) : List Char :=
  text.dropWhile isBlank

/--
A text without the blanks it starts and ends with.
-/
def trim (text : List Char) : List Char :=
  (trimLeft (trimLeft text).reverse).reverse

end Highlight.Blank
