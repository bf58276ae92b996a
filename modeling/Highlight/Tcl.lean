import Highlight.Tcl.Colour

/-!
The language Tcl, which folds while it is coloured.
-/

namespace Highlight.Tcl

def lexer : Lexer :=
  { id := 25
    name := "tcl"
    slots :=
      [⟨"tcl", "TCL Keywords"⟩,
       ⟨"tk", "TK Keywords"⟩,
       ⟨"itcl", "iTCL Keywords"⟩,
       ⟨"tkcommands", "tkCommands"⟩,
       ⟨"expand", "expand"⟩,
       ⟨"user1", "user1"⟩,
       ⟨"user2", "user2"⟩,
       ⟨"user3", "user3"⟩,
       ⟨"user4", "user4"⟩]
    colour
    fold? := none }

end Highlight.Tcl
