import Highlight.Yaml.Tag

/-!
The values that a YAML text describes.
-/

namespace Highlight.Yaml

/--
A value with the tag it was given. A scalar keeps its text and whether it was written plainly, as
only then the text can mean something else than itself. A reference stands for the value of its
number.
-/
inductive Node where
  | scalar (tag? : Option Tag) (plain : Bool) (text : String)
  | list (tag? : Option Tag) (items : List Node)
  | map (tag? : Option Tag) (entries : List (Node × Node))
  | reference (number : Nat)
  deriving Repr

/--
The value where nothing is written.
-/
def Node.empty : Node :=
  .scalar none true ""

end Highlight.Yaml
