import DiagramText.Diagnostic
import DiagramText.Literal
import DiagramText.Text.Alphanumeric
import DiagramText.Text.Search
import DiagramText.Token

/-!
# The lexeme at the head of a text

`Lexeme.read` says which token starts with a given character and how many
further characters it takes. A lexeme always takes its first character, so
reading lexemes makes progress. Text that starts like a literal and does not
end like one is a fault, as is a control character outside every literal.
-/

set_option autoImplicit false

namespace DiagramText.Lexeme

inductive Fault where
  | unterminatedString
  | unterminatedComment
  | strayCharacter
  deriving DecidableEq, Repr

abbrev Reading := Except Fault TokenKind

def kind : Reading → TokenKind
  | .ok k => k
  | .error _ => .error

/-- Characters through the closing quote. A backslash covers the character after it, and a
literal stays on its line. -/
def closingQuote? (q : Char) : List Char → Option Nat
  | '\\' :: c :: cs => if c = '\n' then none else (closingQuote? q cs).map (· + 2)
  | c :: cs =>
    if c = q then some 1
    else if c = '\n' ∨ c = '\\' then none
    else (closingQuote? q cs).map (· + 1)
  | [] => none

def readString (q : Char) (rest : List Char) : Reading × Nat :=
  match closingQuote? q rest with
  | some n => (.ok .string, n)
  | none => (.error .unterminatedString, Text.lineLength rest)

def readComment (rest : List Char) : Reading × Nat :=
  match Text.indexOf? ['"', '"', '"'] (rest.drop 2) with
  | some n => (.ok .blockComment, n + 5)
  | none => (.error .unterminatedComment, rest.length)

def closingPipes? (rest : List Char) : Option Nat :=
  let run := Literal.pipeRun ('|' :: rest)
  (Text.indexOf? (List.replicate run '|') (rest.drop (run - 1))).map fun n => run - 1 + n + run

def readPipes (rest : List Char) : Reading × Nat :=
  match closingPipes? rest with
  | some n => (.ok .blockString, n)
  | none => (.ok .symbol, 0)

def wordLength : List Char → Nat
  | '-' :: c :: cs => if Text.isWordChar c then wordLength cs + 2 else 0
  | c :: cs => if Text.isWordChar c then wordLength cs + 1 else 0
  | [] => 0

def isSpace (c : Char) : Bool := Text.isBlank c && c != '\n'

def punctuation? (c : Char) : Option TokenKind :=
  if c = '.' then some .dot
  else if c = ':' then some .colon
  else if c = ';' then some .semicolon
  else if c = '{' then some .leftBrace
  else if c = '}' then some .rightBrace
  else if c = '[' then some .leftBracket
  else if c = ']' then some .rightBracket
  else none

/-- A connector at the head of the text, with its further characters. -/
def connector? (c : Char) (rest : List Char) : Option (TokenKind × Nat) :=
  if c = '<' then
    if ['-', '>'].isPrefixOf rest then some (.doubleArrow, 2)
    else if ['-'].isPrefixOf rest then some (.leftArrow, 1)
    else none
  else if c = '-' then
    if ['>'].isPrefixOf rest then some (.arrow, 1)
    else if ['-'].isPrefixOf rest then some (.line, 1)
    else none
  else none

def readPlain (c : Char) (rest : List Char) : Reading × Nat :=
  match connector? c rest with
  | some (k, n) => (.ok k, n)
  | none =>
    if c = '\n' then (.ok .newline, 0)
    else if Text.isBlank c then (.ok .whitespace, (rest.takeWhile isSpace).length)
    else if c = '#' then (.ok .comment, Text.lineLength rest)
    else if Text.isWordChar c then (.ok .identifier, wordLength rest)
    else
      match punctuation? c with
      | some k => (.ok k, 0)
      | none => if Text.isControl c then (.error .strayCharacter, 0) else (.ok .symbol, 0)

/-- The token that starts with `c`, and its further characters. Right after a word a single
quote is an apostrophe, and a run of pipes of a length known to be unclosed opens nothing. -/
def read (afterWord : Bool) (unclosed : List Nat) (c : Char) (rest : List Char) :
    Reading × Nat :=
  if c = '"' then
    if ['"', '"'].isPrefixOf rest then readComment rest else readString c rest
  else if c = '\'' then
    if afterWord then (.ok .symbol, 0) else readString c rest
  else if c = '|' then
    if unclosed.contains (Literal.pipeRun (c :: rest)) then (.ok .symbol, 0) else readPipes rest
  else readPlain c rest

def Fault.code : Fault → Code
  | .unterminatedString => .unterminatedString
  | .unterminatedComment => .unterminatedComment
  | .strayCharacter => .unexpectedCharacter

def Fault.message (text : List Char) : Fault → String
  | .unterminatedString => "unterminated string literal"
  | .unterminatedComment => "unterminated block comment"
  | .strayCharacter => "unexpected character " ++ Text.quoted text

def Fault.help : Fault → String
  | .unterminatedString => "add the closing quote before the end of the line"
  | .unterminatedComment => "close the comment with `\"\"\"`"
  | .strayCharacter => "remove the character or put it inside a quoted string"

def Fault.diagnostic (t : Token) (f : Fault) : Diagnostic :=
  .coded .error f.code (f.message t.text) t.span (some f.help)

def escapeDiagnostic (start : Nat) (c : Char) : Diagnostic :=
  .coded .error .invalidEscape ("invalid escape sequence `\\" ++ String.ofList [c] ++ "`")
    ⟨start, start + 1 + c.utf8Size⟩
    (some ("valid escapes: `\\n`, `\\r`, `\\t`, `\\\\`, `\\\"`, `\\'`, `\\/`, `\\0`, " ++
      "`\\ `, `\\#`"))

def diagnostics (t : Token) : Reading → List Diagnostic
  | .error f => [f.diagnostic t]
  | .ok .string => (Literal.unknownEscapes t.start t.text).map fun e => escapeDiagnostic e.1 e.2
  | .ok _ => []

end DiagramText.Lexeme
