import Highlight.Haskell.Colour

/-!
The language Haskell, which has no fold pass.
-/

namespace Highlight.Haskell

def lexer : Lexer :=
  { id := 68
    name := "haskell"
    slots := [⟨"keywords", "Keywords"⟩, ⟨"ffi", "FFI"⟩]
    colour
    fold? := none }

end Highlight.Haskell
