import Highlight.Document.Basic

/-!
Words in a text that a pattern describes. A tilde in a pattern stands behind the shortest form of the
word.
-/

namespace Highlight.Sql

/--
The character at `pos`, with a blank past the end.
-/
def codeAt (doc : Document) (pos : Nat) : Code :=
  (doc.byteAt pos 0x20).toNat

def lowerAt (doc : Document) (pos : Nat) : Code :=
  (codeAt doc pos).toLower

/--
Whether the text from `pos` on is the rest `pattern` of a word, or a short form of it. `short` says
that the shortest form is complete. A space or a semicolon has to follow the whole word, and a space
a short form.
-/
def abbreviatedAt.go (doc : Document) (pos : Nat) (pattern : List Code) (short : Bool) : Bool :=
  match pattern with
  | [] => (codeAt doc pos).isSpace || (codeAt doc pos).is ';'
  | p :: rest =>
    if Code.is p '~' then
      (codeAt doc pos).isSpace ||
        match rest with
        | [] => false
        | q :: rest => lowerAt doc pos == q && go doc (pos + 1) rest true
    else
      (short && (codeAt doc pos).isSpace) || (lowerAt doc pos == p && go doc (pos + 1) rest short)

/--
Whether the word that `pattern` describes, in any case, or a short form of it stands at `pos`.
-/
def abbreviatedAt (doc : Document) (pos : Nat) (pattern : String) : Bool :=
  match (Utf8.encode pattern).map UInt8.toNat with
  | [] => false
  | first :: rest =>
    lowerAt doc pos == first &&
      match rest with
      | [] => abbreviatedAt.go doc (pos + 1) [] false
      | p :: more =>
        if Code.is p '~' then
          abbreviatedAt.go doc (pos + 1) more true
        else
          abbreviatedAt.go doc (pos + 1) rest false

end Highlight.Sql
