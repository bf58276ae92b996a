/-!
Texts without regard to the case of their ASCII letters.
-/

namespace Highlight

/--
Whether two texts are the same but for the case of ASCII letters.
-/
def sameIgnoringCase (s t : String) : Bool :=
  s.toLower == t.toLower

end Highlight
