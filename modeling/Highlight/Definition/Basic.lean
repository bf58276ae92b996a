import Highlight.Options
import Highlight.Text.Case
import Highlight.Text.Path
import Highlight.WordList

/-!
Language definitions: which lexer a language is read with, the words in its keyword lists, and its
options.
-/

namespace Highlight

/--
The words of a keyword list, as one text or one by one.
-/
inductive KeywordSource where
  | text (listed : String)
  | words (listed : List String)
  deriving DecidableEq, Repr

/--
The words as one text, with blanks between them.
-/
def KeywordSource.toText (source : KeywordSource) : String :=
  match source with
  | .text listed => listed
  | .words listed => " ".intercalate listed

/--
The value of an option in a definition.
-/
inductive OptionValue where
  | switch (on : Bool)
  | int (value : Int)
  | text (value : String)
  deriving DecidableEq, Repr

/--
The text of a value among the options of a document. A switch is 1 or 0.
-/
def OptionValue.toText (value : OptionValue) : String :=
  match value with
  | .switch on => if on then "1" else "0"
  | .int value => toString value
  | .text value => value

structure Definition where
  name : String
  lexer? : Option String
  extensions : List String
  keywords : Dict KeywordSource
  options : Dict OptionValue
  deriving DecidableEq, Repr

namespace Definition

/--
The name of the lexer, which is that of the language if no other is given.
-/
def lexerName (definition : Definition) : String :=
  definition.lexer?.getD definition.name

def wordList? (definition : Definition) (key : String) : Option WordList :=
  (definition.keywords.get? key).map fun source => WordList.ofText source.toText

def optionTexts (definition : Definition) : Options :=
  definition.options.mapValues OptionValue.toText

/--
An extension without the point it may start with.
-/
def bareExtension (extension : String) : String :=
  match extension.toList with
  | '.' :: rest => String.ofList rest
  | _ => extension

/--
Whether files with the extension `extension` are of this language.
-/
def claims (definition : Definition) (extension : String) : Bool :=
  definition.extensions.any fun own =>
    sameIgnoringCase (bareExtension own) (bareExtension extension)

end Definition

end Highlight
