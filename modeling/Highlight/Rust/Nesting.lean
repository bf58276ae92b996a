import Highlight.Document.Basic

/-!
The depth of nested comments, which is the line state of Rust.
-/

namespace Highlight.Rust.Nesting

def pack (depth : Nat) : LineState :=
  Int32.ofNat (LineState.saturate depth 31)

/--
A negative state stands for no open comment.
-/
def unpack (state : LineState) : Nat :=
  state.toInt.toNat

/--
The depth that `line` starts with.
-/
def before (doc : Document) (line : Nat) : Nat :=
  ((doc.lineStateAbove? line).map unpack).getD 0

end Highlight.Rust.Nesting
