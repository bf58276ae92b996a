import Highlight.Iteration
import Highlight.Lexer
import Highlight.Pen
import Highlight.Sql.Abbreviation
import Highlight.Sql.Token
import Highlight.Text.Split

/-!
Colouring SQL.

A pass goes from byte to byte. It takes both bytes of a double-byte character at once, and the two
quotes that stand for one quote in a string. Nothing but the style in front of a line is needed to go
on there.
-/

namespace Highlight.Sql

structure Settings where
  keywords : Keywords
  /-- A backslash takes the character after it along, in a string with apostrophes. -/
  backslashEscapes : Bool
  /-- The span of the pass. -/
  span : Span
  deriving DecidableEq, Repr

def Settings.read (keywords : Keywords) (options : Options) (span : Span) : Settings :=
  { keywords, backslashEscapes := options.getFlag "sql.backslash.escapes" false, span }

/--
A pen, the position of the next byte, the style of the open token, and the byte in front, which is a
blank behind a double-byte character.
-/
structure Scan where
  pen : Pen
  pos : Nat
  state : Style
  prev : Code
  deriving DecidableEq, Repr

namespace Scan

def doc (s : Scan) : Document :=
  s.pen.doc

def cur (s : Scan) : Code :=
  codeAt s.doc s.pos

def next (s : Scan) : Code :=
  codeAt s.doc (s.pos + 1)

/--
End the open token in front of `stop`, and open one with the style `state`.
-/
def close (s : Scan) (stop : Nat) (state : Style) : Scan :=
  { s with pen := s.pen.colourTo stop s.state, state }

/--
The text of the open token, or of its first `limit` bytes, in lower case.
-/
def token (s : Scan) (limit : Nat) : String :=
  (Utf8.decodeLossy (s.doc.bytes s.pen.segment (min s.pos (s.pen.segment + limit)))).toLower

/--
The style of a word: a number by its first character, or that of the first list which has it.
Commands can be abbreviated.
-/
def wordStyle (keywords : Keywords) (first : Code) (word : String) : Style :=
  if first.isDigit || first.is '.' then
    Style.number
  else if (keywords.list 0).contains word then
    Style.word
  else if (keywords.list 1).contains word then
    Style.databaseObject
  else if (keywords.list 3).containsAbbreviated word '~' then
    Style.command
  else if (keywords.list 4).contains word then
    Style.userWord1
  else if (keywords.list 5).contains word then
    Style.userWord2
  else if (keywords.list 6).contains word then
    Style.userWord3
  else if (keywords.list 7).contains word then
    Style.userWord4
  else
    Style.identifier

/--
The style of the remark or the prompt that starts at the current byte.
-/
def startingLine? (s : Scan) : Option Style :=
  if abbreviatedAt s.doc s.pos "rem~ark" then
    some Style.remark
  else if abbreviatedAt s.doc s.pos "pro~mpt" then
    some Style.prompt
  else
    none

/--
The style of the comment that starts at the current byte.
-/
def startingComment? (s : Scan) : Option Style :=
  if s.cur.is '/' && s.next.is '*' then
    some (if (codeAt s.doc (s.pos + 2)).is '*' then Style.commentDoc else Style.comment)
  else if s.cur.is '-' && s.next.is '-' then
    some Style.commentLine
  else if s.cur.is '#' then
    some Style.commentLineDoc
  else
    none

def startingString? (s : Scan) : Option Style :=
  if s.cur == Code.apostrophe then
    some Style.character
  else if s.cur == Code.quote then
    some Style.string
  else
    none

def startingWord? (s : Scan) : Option Style :=
  if isWordStart s.cur then some Style.word else none

/--
The style of the token that starts at the current byte. Between tokens, remarks, prompts and words go
before comments; right behind a token, comments go before them.
-/
def starting? (s : Scan) (betweenTokens : Bool) : Option Style :=
  if betweenTokens then
    s.startingLine? <|> s.startingWord? <|> s.startingComment? <|> s.startingString?
  else
    s.startingComment? <|> s.startingLine? <|> s.startingString? <|> s.startingWord?

/--
Colour the current byte if it is an operator, which is a token of its own.
-/
def operator (s : Scan) : Scan :=
  if s.cur.isOperator then
    { s with pen := (s.pen.colourTo s.pos Style.default).colourTo (s.pos + 1) Style.operator }
  else
    s

/--
Right behind a token, start the next one.
-/
def enter (s : Scan) : Scan :=
  match s.starting? false with
  | some state => { s with state }
  | none => { s.operator with state := Style.default }

/--
The step between tokens.
-/
def stepBetween (s : Scan) : Scan :=
  match s.starting? true with
  | some state => s.close s.pos state
  | none => s.operator

/--
The step in a word.
-/
def stepInWord (keywords : Keywords) (s : Scan) : Scan :=
  if isWord s.cur then
    s
  else
    let style := wordStyle keywords (codeAt s.doc s.pen.segment) (s.token 80)
    { s with pen := s.pen.colourTo s.pos style }.enter

/--
Whether a comment that can span lines ends with the current byte. The star that opens it does not
close it, unless it was opened in front of the span.
-/
def closesComment (span : Span) (s : Scan) : Bool :=
  s.pen.segment + 2 < s.pos || (span.style == s.state && s.pen.segment == span.start)

def leaveComment (span : Span) (s : Scan) : Scan :=
  if closesComment span s then s.close (s.pos + 1) Style.default else s

/--
Whether a documentation keyword starts at the current byte of a comment.
-/
def startsDocKeyword (s : Scan) : Bool :=
  s.cur.is '@' && (s.prev.isSpace || s.prev.is '*') && !s.next.isSpace

/--
A documentation keyword is in error unless its list has it. The end of the comment ends it too.
-/
def leaveDocKeyword (keywords : Keywords) (s : Scan) : Scan :=
  if s.cur.is '/' && s.prev.is '*' then
    { s with pen := s.pen.colourTo s.pos Style.docKeywordError, state := Style.default }
  else if isWord s.cur then
    s
  else
    let known := (keywords.list 2).contains (withoutFirstByte (s.token 30))
    let style := if known then s.state else Style.docKeywordError
    { s with pen := s.pen.colourTo s.pos style, state := Style.commentDoc }

/--
A quote ends a string; two of them stand for one in it. Either way the byte behind the quote is taken
along.
-/
def leaveString (quote : Code) (s : Scan) : Scan :=
  if s.cur == quote then
    let s := if s.next == quote then s else s.close (s.pos + 1) Style.default
    { s with pos := s.pos + 1 }
  else
    s

def leave (settings : Settings) (s : Scan) : Scan :=
  match s.state with
  | Style.comment => if s.cur.is '/' && s.prev.is '*' then s.leaveComment settings.span else s
  | Style.commentDoc =>
    if s.cur.is '/' && s.prev.is '*' then
      s.leaveComment settings.span
    else if s.startsDocKeyword then
      s.close s.pos Style.docKeyword
    else
      s
  | Style.commentLine | Style.commentLineDoc | Style.remark | Style.prompt =>
    if s.cur.isLineEnd then s.close s.pos Style.default else s
  | Style.docKeyword => s.leaveDocKeyword settings.keywords
  | Style.character =>
    if settings.backslashEscapes && s.cur == Code.backslash then
      { s with pos := s.pos + 1 }
    else
      s.leaveString Code.apostrophe
  | Style.string => s.leaveString Code.quote
  | _ => s

/--
The step in any other token.
-/
def stepInToken (settings : Settings) (s : Scan) : Scan :=
  let s := s.leave settings
  if s.state == Style.default then s.enter else s

def step (settings : Settings) (s : Scan) : Scan :=
  if s.doc.encoding.isLeadByte (s.doc.byteAt s.pos 0x20) then
    { s with pos := s.pos + 2, prev := Code.blank }
  else
    let s :=
      match s.state with
      | Style.default => s.stepBetween
      | Style.word => s.stepInWord settings.keywords
      | _ => s.stepInToken settings
    { s with pos := s.pos + 1, prev := s.cur }

def ofSpan (span : Span) (doc : Document) : Scan :=
  { pen := ⟨doc, span.start⟩, pos := span.start, state := span.style, prev := Code.blank }

end Scan

def colour : Pass := fun keywords span doc =>
  let span := doc.wholeLines span
  let settings := Settings.read keywords doc.options span
  let s := repeatWhile (·.pos < span.stop) (Scan.step settings) span.length (Scan.ofSpan span doc)
  (s.pen.colourTo span.stop s.state).doc

end Highlight.Sql
