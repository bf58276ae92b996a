import Highlight.Definition.Bundled
import Highlight.Language

/-!
Sessions: a lexer with its keyword lists and options, which styles documents.

A session widens every range to whole lines and starts with the style in front of them, so that any
line can be the first one of a pass.
-/

namespace Highlight

/--
Why there is no such session.
-/
inductive SessionError where
  | unknownLexer (name : String)
  | unknownLexerId (id : Int)
  | unknownKeywords (lexer key : String)
  deriving DecidableEq, Repr

def SessionError.message (error : SessionError) : String :=
  match error with
  | .unknownLexer name => "unknown lexer '" ++ name ++ "'"
  | .unknownLexerId id => "unknown lexer id " ++ toString id
  | .unknownKeywords lexer key => "lexer '" ++ lexer ++ "' has no keyword set '" ++ key ++ "'"

structure Session where
  lexer : Lexer
  keywords : Keywords
  options : Options

namespace Session

/--
A session in which all keyword lists are empty.
-/
def ofLexer (lexer : Lexer) : Session :=
  { lexer, keywords := .replicate lexer.slots.length .empty, options := .empty }

def ofName (name : String) : Except SessionError Session :=
  match Language.ofName? name with
  | some language => .ok (ofLexer language.lexer)
  | none => .error (.unknownLexer name)

def ofId (id : Int) : Except SessionError Session :=
  match Language.ofId? id with
  | some language => .ok (ofLexer language.lexer)
  | none => .error (.unknownLexerId id)

/--
Fill the keyword list at `index` with the words of a text. The second part says whether that changes
it; there is nothing to change behind the last list.
-/
def setKeywords (session : Session) (index : Nat) (words : String) : Session × Bool :=
  match session.keywords[index]? with
  | some list =>
    let (filled, changed) := list.set words
    ({ session with keywords := session.keywords.setIfInBounds index filled }, changed)
  | none => (session, false)

/--
Fill the keyword list with the key `key`.
-/
def setKeywordsByKey (session : Session) (key words : String) : Except SessionError (Session × Bool) :=
  match session.lexer.slotIndex? key with
  | some index => .ok (session.setKeywords index words)
  | none => .error (.unknownKeywords session.lexer.name key)

/--
The session a definition describes. Each key of its keywords has to be one of the lexer's.
-/
def ofDefinition (definition : Definition) : Except SessionError Session := do
  let session ← ofName definition.lexerName
  let session ← definition.keywords.entries.foldlM (fun session entry => do
    let filled ← session.setKeywordsByKey entry.1 entry.2.toText
    pure filled.1) session
  pure { session with options := definition.optionTexts }

/--
The session of the bundled definition with the name `name`; where there is none, a session without
keywords.
-/
def bundled (name : String) : Except SessionError Session :=
  match LanguageSet.bundled.get? name with
  | some definition => ofDefinition definition
  | none => ofName name

/--
Store the options of the session in a document.
-/
def applyOptions (session : Session) (doc : Document) : Document :=
  { doc with options := doc.options.extend session.options }

def run (session : Session) (pass : Pass) (doc : Document) (start stop : Nat) : Document :=
  match doc.linesSpan? start stop with
  | some span => pass session.keywords span doc
  | none => doc

/--
Colour the lines from `start` up to `stop`.
-/
def colour (session : Session) (doc : Document) (start stop : Nat) : Document :=
  session.run session.lexer.colour doc start stop

/--
Compute the fold levels of the lines from `start` up to `stop`.
-/
def fold (session : Session) (doc : Document) (start stop : Nat) : Document :=
  session.run session.lexer.fold doc start stop

/--
Colour and fold the lines from `start` up to `stop`.
-/
def style (session : Session) (doc : Document) (start stop : Nat) : Document :=
  session.fold (session.colour doc start stop) start stop

/--
Run over a text in parts, which end at the positions `cuts` and at the end of the text.
-/
def inParts (pass : Document → Nat → Nat → Document) (doc : Document) (start : Nat) (cuts : List Nat) :
    Document :=
  match cuts with
  | [] => pass doc start doc.size
  | cut :: cuts => inParts pass (pass doc start cut) cut cuts

def colourInParts (session : Session) (doc : Document) (cuts : List Nat) : Document :=
  inParts session.colour doc 0 cuts

def styleInParts (session : Session) (doc : Document) (cuts : List Nat) : Document :=
  inParts session.style doc 0 cuts

/--
Style the lines that are not valid, up to the one of `target`.
-/
def ensureStyled (session : Session) (doc : Document) (target : Nat) : Document :=
  let target := min target doc.size
  if target ≤ doc.endStyled then
    doc
  else
    let start := doc.lineStart (doc.lineOf doc.endStyled)
    let line := doc.lineOf target
    let stop := if line + 1 < doc.lineCount then doc.lineStart (line + 1) else doc.size
    (session.style doc start stop).setEndStyled stop

end Session

end Highlight
