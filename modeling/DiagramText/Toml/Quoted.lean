import DiagramText.Text.Radix
import DiagramText.Toml.Table

/-!
# TOML strings and keys

A basic string has escapes, a literal string has none, and either may span
lines when it stands between three quotes. Readers take what they read off
the front of a text. Where a string or a key ends is settled before what it
means, so that one without a meaning does not hide the text after it.
-/

set_option autoImplicit false

namespace DiagramText.Toml

/-- Reads something from the front of a text and gives what follows it. -/
abbrev Reader (α : Type) := List Char → Option (α × List Char)

def isSpace (c : Char) : Bool := c == ' ' || c == '\t'

def skipSpaces (cs : List Char) : List Char := cs.dropWhile isSpace

def isPlain (c : Char) : Bool := c == '\t' || (' ' ≤ c && c != '\x7f')

def newline? : List Char → Option (List Char)
  | '\n' :: cs => some cs
  | '\r' :: '\n' :: cs => some cs
  | _ => none

def skipLines : List Char → List Char
  | '\r' :: '\n' :: cs => skipLines cs
  | c :: cs => if isSpace c || c == '\n' then skipLines cs else c :: cs
  | [] => []

namespace Quoted

def numbered? (digits : Nat) : Reader Char := fun cs =>
  match (cs.take digits).mapM Text.hexValue? with
  | some ds =>
    let n := Text.ofDigits 16 ds
    if ds.length = digits ∧ n.isValidChar then some (Char.ofNat n, cs.drop digits) else none
  | none => none

def escape? : Reader Char
  | 'b' :: cs => some ('\x08', cs)
  | 't' :: cs => some ('\t', cs)
  | 'n' :: cs => some ('\n', cs)
  | 'f' :: cs => some ('\x0c', cs)
  | 'r' :: cs => some ('\r', cs)
  | 'e' :: cs => some ('\x1b', cs)
  | '"' :: cs => some ('"', cs)
  | '\\' :: cs => some ('\\', cs)
  | 'x' :: cs => numbered? 2 cs
  | 'u' :: cs => numbered? 4 cs
  | 'U' :: cs => numbered? 8 cs
  | _ => none

def hiddenBreak? (cs : List Char) : Option (List Char) :=
  (newline? (skipSpaces cs)).map skipLines

def push (c : Char) (r : List Char × List Char) : List Char × List Char := (c :: r.1, r.2)

def basic? : Reader (List Char)
  | [] => none
  | '"' :: cs => some ([], cs)
  | '\\' :: cs =>
    match escape? cs with
    | some (c, rest) => if rest.length ≤ cs.length then (basic? rest).map (push c) else none
    | none => none
  | c :: cs => if isPlain c then (basic? cs).map (push c) else none
termination_by cs => cs.length
decreasing_by all_goals simp only [List.length_cons]; omega

def literal? : Reader (List Char)
  | [] => none
  | '\'' :: cs => some ([], cs)
  | c :: cs => if isPlain c then (literal? cs).map (push c) else none

def lastQuotes (q : Char) (cs : List Char) : List Char × List Char :=
  let quotes := (cs.take 2).takeWhile (· == q)
  (quotes, cs.drop quotes.length)

def longBasic? : Reader (List Char)
  | [] => none
  | '"' :: '"' :: '"' :: cs => some (lastQuotes '"' cs)
  | '\r' :: '\n' :: cs => (longBasic? cs).map (push '\n')
  | '\\' :: cs =>
    match hiddenBreak? cs with
    | some rest => if rest.length ≤ cs.length then longBasic? rest else none
    | none =>
      match escape? cs with
      | some (c, rest) => if rest.length ≤ cs.length then (longBasic? rest).map (push c) else none
      | none => none
  | c :: cs => if isPlain c || c == '\n' then (longBasic? cs).map (push c) else none
termination_by cs => cs.length
decreasing_by all_goals simp only [List.length_cons]; omega

def longLiteral? : Reader (List Char)
  | [] => none
  | '\'' :: '\'' :: '\'' :: cs => some (lastQuotes '\'' cs)
  | '\r' :: '\n' :: cs => (longLiteral? cs).map (push '\n')
  | c :: cs => if isPlain c || c == '\n' then (longLiteral? cs).map (push c) else none

/-- The characters of a string on one line after its opening quote, through its closing quote or
up to the end of the line, and what follows them. In a basic string a backslash keeps a quote from
closing it. -/
def shortSpan (quote : Char) : List Char → List Char × List Char
  | [] => ([], [])
  | '\n' :: cs => ([], '\n' :: cs)
  | '\\' :: c :: cs =>
    if quote = '"' ∧ (c = '"' ∨ c = '\\') then push '\\' (push c (shortSpan quote cs))
    else push '\\' (shortSpan quote (c :: cs))
  | c :: cs => if c = quote then ([c], cs) else push c (shortSpan quote cs)

def longSpan (quote : Char) : List Char → List Char × List Char
  | [] => ([], [])
  | '\\' :: c :: cs =>
    if quote = '"' ∧ (c = '"' ∨ c = '\\') then push '\\' (push c (longSpan quote cs))
    else push '\\' (longSpan quote (c :: cs))
  | a :: b :: c :: cs =>
    if a = quote ∧ b = quote ∧ c = quote then
      let last := lastQuotes quote cs
      (a :: b :: c :: last.1, last.2)
    else push a (longSpan quote (b :: c :: cs))
  | a :: cs => push a (longSpan quote cs)

def meaning (reader : Reader (List Char)) (span : List Char) : Except Fault (List Char) :=
  match reader span with
  | some (s, []) => .ok s
  | _ => .error .malformed

end Quoted

def string? : Reader (Except Fault (List Char))
  | '"' :: '"' :: '"' :: cs =>
    let r := Quoted.longSpan '"' cs
    some (Quoted.meaning Quoted.longBasic? ((newline? r.1).getD r.1), r.2)
  | '\'' :: '\'' :: '\'' :: cs =>
    let r := Quoted.longSpan '\'' cs
    some (Quoted.meaning Quoted.longLiteral? ((newline? r.1).getD r.1), r.2)
  | '"' :: cs =>
    let r := Quoted.shortSpan '"' cs
    some (Quoted.meaning Quoted.basic? r.1, r.2)
  | '\'' :: cs =>
    let r := Quoted.shortSpan '\'' cs
    some (Quoted.meaning Quoted.literal? r.1, r.2)
  | _ => none

def isBare (c : Char) : Bool := c.isAlphanum || c == '_' || c == '-'

def isMark (c : Char) : Bool :=
  c == '=' || c == ',' || c == '[' || c == ']' || c == '{' || c == '}' || c == '#'

def isWordPart (c : Char) : Bool := isPlain c && !isSpace c && !isMark c

/-- A key is a bare word or a string on one line. -/
def key? : Reader (Except Fault Key)
  | '"' :: '"' :: '"' :: cs => some (.error .malformed, (Quoted.longSpan '"' cs).2)
  | '\'' :: '\'' :: '\'' :: cs => some (.error .malformed, (Quoted.longSpan '\'' cs).2)
  | '"' :: cs => string? ('"' :: cs)
  | '\'' :: cs => string? ('\'' :: cs)
  | cs =>
    let word := cs.takeWhile fun c => isWordPart c && c != '.'
    if word.isEmpty then none
    else some (if word.all isBare then .ok word else .error .malformed, cs.drop word.length)

def joined? {α : Type} (item : Reader α) (join : List Char → Option (List Char)) :
    Reader (List α) := fun cs =>
  match item cs with
  | none => none
  | some (x, rest) =>
    match join rest with
    | none => some ([x], rest)
    | some more =>
      if more.length < cs.length then
        (joined? item join more).map fun r => (x :: r.1, r.2)
      else none
termination_by cs => cs.length

def dot? (cs : List Char) : Option (List Char) :=
  match skipSpaces cs with
  | '.' :: rest => some (skipSpaces rest)
  | _ => none

def dottedKey? : Reader (Except Fault (List Key × Key)) := fun cs =>
  match joined? key? dot? cs with
  | some (keys, rest) =>
    let split : Except Fault (List Key × Key) := do
      let keys ← keys.mapM id
      match keys.getLast? with
      | some k => .ok (keys.dropLast, k)
      | none => .error .malformed
    some (split, rest)
  | none => none

end DiagramText.Toml
