import DiagramText.Text.Blank

/-!
# Literals

A quoted literal stands between two equal quotes; a backslash and one of ten
characters name a character, and any other pair stands for itself. A block
literal stands between two equal runs of one to three pipes, after an
optional tag that ends at the first blank.
-/

set_option autoImplicit false

namespace DiagramText.Literal

def escaped? (c : Char) : Option Char :=
  if c = 'n' then some '\n'
  else if c = 'r' then some '\r'
  else if c = 't' then some '\t'
  else if c = '0' then some '\x00'
  else if c = '\\' ∨ c = '"' ∨ c = '\'' ∨ c = '/' ∨ c = ' ' ∨ c = '#' then some c
  else none

def cook : List Char → List Char
  | '\\' :: c :: cs =>
    match escaped? c with
    | some d => d :: cook cs
    | none => '\\' :: c :: cook cs
  | c :: cs => c :: cook cs
  | [] => []

def validEscapes : List Char := ['n', 'r', 't', '\\', '"', '\'', '/', '0', ' ', '#']

def unknownEscapes (start : Nat) : List Char → List (Nat × Char)
  | '\\' :: c :: cs =>
    let rest := unknownEscapes (start + 1 + c.utf8Size) cs
    if validEscapes.contains c then rest else (start, c) :: rest
  | c :: cs => unknownEscapes (start + c.utf8Size) cs
  | [] => []

def isQuote (c : Char) : Bool := c == '"' || c == '\''

def stripQuotes : List Char → List Char
  | [] => []
  | q :: cs =>
    if isQuote q then
      if cs.getLast? = some q then cs.dropLast else cs
    else q :: cs

def unescape (raw : List Char) : List Char := cook (stripQuotes raw)

def pipeRun (cs : List Char) : Nat := min 3 (cs.takeWhile (· == '|')).length

def blockBody (raw : List Char) : List Char :=
  let run := raw.take (pipeRun raw)
  let body := raw.drop (pipeRun raw)
  if run.isSuffixOf body then body.take (body.length - run.length) else body

/-- The text of a block literal: the body after its tag, without the blanks around it. -/
def blockText (raw : List Char) : List Char :=
  Text.trim ((blockBody raw).dropWhile (!Text.isBlank ·))

/-- The tag of a block literal: what stands before the first blank. -/
def blockTag? (raw : List Char) : Option (List Char) :=
  let body := raw.dropWhile (· == '|')
  let tag := body.takeWhile (!Text.isBlank ·)
  if tag.length = body.length ∨ tag.isEmpty then none else some tag

def writeChar (q c : Char) : List Char :=
  if c = '\\' then ['\\', '\\']
  else if c = q then ['\\', q]
  else if c = '\n' then ['\\', 'n']
  else [c]

def write (q : Char) (text : List Char) : List Char :=
  q :: text.flatMap (writeChar q) ++ [q]

end DiagramText.Literal
