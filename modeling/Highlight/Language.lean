import Highlight.Gibiane
import Highlight.Haskell
import Highlight.R
import Highlight.Rust
import Highlight.Scss
import Highlight.Sql
import Highlight.Tcl
import Highlight.Text.Case

/-!
The languages of the library, and catalogues of lexers.
-/

namespace Highlight

inductive Language where
  | rust
  | haskell
  | tcl
  | scss
  | gibiane
  | r
  | sql
  deriving DecidableEq, Repr

namespace Language

def all : List Language :=
  [.rust, .haskell, .tcl, .scss, .gibiane, .r, .sql]

def lexer (language : Language) : Lexer :=
  match language with
  | .rust => Rust.lexer
  | .haskell => Haskell.lexer
  | .tcl => Tcl.lexer
  | .scss => Scss.lexer
  | .gibiane => Gibiane.lexer
  | .r => R.lexer
  | .sql => Sql.lexer

/--
The language with the name `name` in any case.
-/
def ofName? (name : String) : Option Language :=
  all.find? fun language => sameIgnoringCase language.lexer.name name

def ofId? (id : Int) : Option Language :=
  all.find? fun language => language.lexer.id == id

end Language

/--
Lexers with distinct numbers, in the order in which the numbers came.
-/
structure Catalogue where
  lexers : List Lexer

namespace Catalogue

def empty : Catalogue :=
  ⟨[]⟩

def size (catalogue : Catalogue) : Nat :=
  catalogue.lexers.length

def isEmpty (catalogue : Catalogue) : Bool :=
  catalogue.lexers.isEmpty

def findById? (catalogue : Catalogue) (id : Int) : Option Lexer :=
  catalogue.lexers.find? (·.id == id)

def findByName? (catalogue : Catalogue) (name : String) : Option Lexer :=
  catalogue.lexers.find? fun lexer => sameIgnoringCase lexer.name name

/--
Add a lexer, in the place of the one that has its number.
-/
def add (catalogue : Catalogue) (lexer : Lexer) : Catalogue :=
  match catalogue.lexers.findIdx? (·.id == lexer.id) with
  | some index => ⟨catalogue.lexers.set index lexer⟩
  | none => ⟨catalogue.lexers ++ [lexer]⟩

/--
The lexers of all languages.
-/
def builtin : Catalogue :=
  (Language.all.map Language.lexer).foldl add empty

end Catalogue

end Highlight
