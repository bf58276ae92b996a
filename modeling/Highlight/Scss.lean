import Highlight.Scss.Colour
import Highlight.Scss.Fold

/-!
The language SCSS.
-/

namespace Highlight.Scss

def lexer : Lexer :=
  { id := 200
    name := "scss"
    slots :=
      [⟨"css1", "CSS1 Properties"⟩,
       ⟨"pseudo_classes", "Pseudo-classes"⟩,
       ⟨"css2", "CSS2 Properties"⟩,
       ⟨"css3", "CSS3 Properties"⟩,
       ⟨"pseudo_elements", "Pseudo-elements"⟩,
       ⟨"browser_properties", "Browser-Specific CSS Properties"⟩,
       ⟨"browser_pseudo_classes", "Browser-Specific Pseudo-classes"⟩,
       ⟨"browser_pseudo_elements", "Browser-Specific Pseudo-elements"⟩]
    colour
    fold? := some fold }

end Highlight.Scss
