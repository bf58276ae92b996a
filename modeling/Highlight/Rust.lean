import Highlight.Rust.Colour
import Highlight.Rust.Fold

/-!
The language Rust.
-/

namespace Highlight.Rust

def lexer : Lexer :=
  { id := 111
    name := "rust"
    slots :=
      [⟨"primary", "Primary keywords and identifiers"⟩,
       ⟨"secondary", "Secondary keywords and identifiers"⟩,
       ⟨"doc", "Documentation comment keywords"⟩,
       ⟨"types", "Type definitions and aliases"⟩,
       ⟨"keywords5", "Keywords 5"⟩,
       ⟨"keywords6", "Keywords 6"⟩,
       ⟨"keywords7", "Keywords 7"⟩]
    colour
    fold? := some fold }

end Highlight.Rust
