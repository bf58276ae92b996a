import Highlight.R.Colour
import Highlight.R.Fold

/-!
The language R.
-/

namespace Highlight.R

def lexer : Lexer :=
  { id := 86
    name := "r"
    slots :=
      [⟨"keywords", "Language Keywords"⟩,
       ⟨"base", "Base / Default package function"⟩,
       ⟨"other", "Other Package Functions"⟩,
       ⟨"unused1", "Unused"⟩,
       ⟨"unused2", "Unused"⟩]
    colour
    fold? := some fold }

end Highlight.R
