import DiagramText.Diagnostic
import DiagramText.Tree

/-!
# Grammar rules

A rule reads tokens from a cursor and gives the trees that it builds, the
diagnostics that it finds and the cursor after it. Rules are built from four
primitives: taking a number of tokens, wrapping what a rule builds in a node,
reporting a diagnostic, and reading rules one after another.
-/

set_option autoImplicit false

namespace DiagramText

/-- The tokens still to be read, and the offset at which the document ends. -/
structure Cursor where
  tokens : List Token
  stop : Nat

namespace Cursor

def offset (c : Cursor) : Nat :=
  match c.tokens with
  | [] => c.stop
  | t :: _ => t.start

def drop (n : Nat) (c : Cursor) : Cursor := ⟨c.tokens.drop n, c.stop⟩

def current? (c : Cursor) : Option TokenKind := c.tokens.head?.map (·.kind)

def peek? (c : Cursor) : Option TokenKind := (c.tokens.find? (!·.isTrivia)).map (·.kind)

/-- The span of the next token, empty at the end of the document. -/
def span (c : Cursor) : Span :=
  match c.tokens with
  | [] => .empty c.stop
  | t :: _ => t.span

end Cursor

structure Output where
  trees : List Tree
  diagnostics : List Diagnostic
  cursor : Cursor
  stuck : Bool

def Output.append (a b : Output) : Output :=
  ⟨a.trees ++ b.trees, a.diagnostics ++ b.diagnostics, b.cursor, a.stuck || b.stuck⟩

abbrev Rule := Cursor → Output

namespace Rule

def skip : Rule := fun c => ⟨[], [], c, false⟩

def halt : Rule := fun c => ⟨[], [], c, true⟩

def take (length : List Token → Nat) : Rule := fun c =>
  ⟨(c.tokens.take (length c.tokens)).map .token, [], c.drop (length c.tokens),
    decide (c.tokens.length < length c.tokens)⟩

def bump : Rule := take fun ts => min 1 ts.length

def takeCounted (length? : List Token → Option Nat) : Rule := fun c =>
  match length? c.tokens with
  | some n => take (fun _ => n) c
  | none => halt c

def triviaLength (ts : List Token) : Nat := (ts.takeWhile (·.isTrivia)).length

def trivia : Rule := take triviaLength

/-- Wraps what the rule builds in a node that opens at the cursor. -/
def node (kind : NodeKind) (p : Rule) : Rule := fun c =>
  let a := p c
  ⟨[.node kind c.offset a.trees], a.diagnostics, a.cursor, a.stuck⟩

def report (d : Cursor → Diagnostic) : Rule := fun c => ⟨[], [d c], c, false⟩

def andThen (p q : Rule) : Rule := fun c =>
  let a := p c
  a.append (q a.cursor)

def seq : List Rule → Rule
  | [] => skip
  | p :: ps => andThen p (seq ps)

def whenNext (test : TokenKind → Bool) (p : Rule) : Rule := fun c =>
  if c.peek?.any test then p c else skip c

def many (test : Cursor → Bool) (p : Rule) (c : Cursor) : Output :=
  if test c then
    let a := p c
    if a.cursor.tokens.length < c.tokens.length then a.append (many test p a.cursor)
    else { a with stuck := true }
  else skip c
termination_by c.tokens.length

end Rule

end DiagramText
