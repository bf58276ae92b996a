import Highlight.Gibiane.Colour
import Highlight.Gibiane.Fold

/-!
The language Gibiane.
-/

namespace Highlight.Gibiane

def lexer : Lexer :=
  { id := 201
    name := "gibiane"
    slots :=
      [⟨"conditional", "conditional"⟩,
       ⟨"test", "test1"⟩,
       ⟨"loop", "loop"⟩,
       ⟨"task", "task"⟩,
       ⟨"element", "element"⟩,
       ⟨"function1", "function1"⟩,
       ⟨"function2", "function2"⟩,
       ⟨"operator", "operator"⟩]
    colour
    fold? := some fold }

end Highlight.Gibiane
