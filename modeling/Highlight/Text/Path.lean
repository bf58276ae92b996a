import Highlight.Text.Split

/-!
The extension of a file in a path with slashes.
-/

namespace Highlight.Path

/--
The name of the file a path leads to. Empty parts and parts that are a single point lead nowhere
else; a path that ends by going up has no file name.
-/
def fileName? (path : String) : Option (List Char) :=
  match ((splitOn '/' path.toList).filter fun part => !part.isEmpty && part != ['.']).getLast? with
  | none => none
  | some name => if name == ['.', '.'] then none else some name

/--
What stands behind the last point of the file name, if that point is not its first character.
-/
def extension? (path : String) : Option String :=
  match fileName? path with
  | none => none
  | some name =>
    match name.reverse.dropWhile (· != '.') with
    | [] => none
    | [_] => none
    | _ :: _ :: _ => some (String.ofList (name.reverse.takeWhile (· != '.')).reverse)

end Highlight.Path
