import DiagramText.Grammar.Rule
import DiagramText.Keyword

/-!
# Lookahead

The grammar decides what a statement is by measuring the tokens ahead: the
dotted path at its head, the text up to the end of a label or a value, a
braced group, the distance to the end of the statement. Each measure is a
number of tokens.
-/

set_option autoImplicit false

namespace DiagramText.Lookahead

/-- Further words of a segment, each after one blank token. -/
def moreWords : List Token → Nat
  | blank :: word :: ts =>
    if blank.kind = .whitespace ∧ word.kind = .identifier then moreWords ts + 2 else 0
  | _ => 0

/-- A segment of a path is a row of words or one quoted string. -/
def segmentLength : List Token → Nat
  | [] => 0
  | t :: ts =>
    if t.kind = .identifier then moreWords ts + 1
    else if t.kind = .string then 1
    else 0

def isKeywordSegment (ts : List Token) : Bool :=
  segmentLength ts == 1 &&
    ts.head?.any fun t => t.kind == .identifier && Keyword.isReserved t.spelling

def startsSegment (k : TokenKind) : Bool := k == .identifier || k == .string

def jointLength? (ts : List Token) : Option Nat :=
  let before := Rule.triviaLength ts
  match ts.drop before with
  | [] => none
  | dot :: rest =>
    if dot.kind = .dot then
      let after := Rule.triviaLength rest
      if (rest.drop after).head?.any (startsSegment ·.kind) then some (before + 1 + after)
      else none
    else none

structure Path where
  length : Nat
  hasKeyword : Bool

def path (ts : List Token) : Path :=
  let n := segmentLength ts
  if _h : 0 < n then
    match jointLength? (ts.drop n) with
    | none => ⟨n, isKeywordSegment ts⟩
    | some k =>
      let rest := path (ts.drop (n + k))
      ⟨n + k + rest.length, isKeywordSegment ts || rest.hasKeyword⟩
  else ⟨0, false⟩
termination_by ts.length
decreasing_by
  cases ts with
  | nil => simp [n, segmentLength] at _h
  | cons t ts => simp only [List.length_drop, List.length_cons]; omega

def pathLength (ts : List Token) : Nat := (path ts).length

/-- Tokens of the group at the head through the token that closes it; all tokens if none does.
`depth` groups are already open, and where none is there is nothing to close. -/
def groupLength? (opening closing : TokenKind) : Nat → List Token → Option Nat
  | _, [] => some 0
  | depth, t :: ts =>
    if t.kind = opening then (groupLength? opening closing (depth + 1) ts).map (· + 1)
    else if t.kind = closing then
      match depth with
      | 0 => none
      | 1 => some 1
      | depth + 2 => (groupLength? opening closing (depth + 1) ts).map (· + 1)
    else (groupLength? opening closing depth ts).map (· + 1)

def blockBeforeConnector? (c : Cursor) : Option Bool :=
  (groupLength? .leftBrace .rightBrace 0 c.tokens).map fun n =>
    (c.drop n).peek?.any (·.isConnector)

def isTerminator (k : TokenKind) : Bool := k == .newline || k == .semicolon || k == .rightBrace

def statementLength? : Nat → List Token → Option Nat
  | _, [] => some 0
  | depth, t :: ts =>
    if depth = 0 ∧ isTerminator t.kind then some 0
    else if t.kind = .rightBrace then
      match depth with
      | 0 => none
      | depth + 1 => (statementLength? depth ts).map (· + 1)
    else if t.kind = .leftBrace then (statementLength? (depth + 1) ts).map (· + 1)
    else (statementLength? depth ts).map (· + 1)

def runLength (stops : Token → Bool) (ts : List Token) : Nat :=
  ((ts.takeWhile (!stops ·)).reverse.dropWhile (·.kind == .whitespace)).length

def stopsText (t : Token) : Bool :=
  match t.kind with
  | .newline | .semicolon | .leftBrace | .rightBrace | .comment | .blockComment => true
  | _ => false

def textLength (ts : List Token) : Nat := runLength stopsText ts

def startsText (k : TokenKind) : Bool :=
  !(isTerminator k || k == .leftBrace || k.isTrivia)

def isComma (t : Token) : Bool := t.kind == .symbol && t.text == [',']

def isSeparator (t : Token) : Bool :=
  t.kind == .semicolon || t.kind == .newline || isComma t

def stopsElement (t : Token) : Bool :=
  isSeparator t ||
    match t.kind with
    | .rightBracket | .leftBracket | .rightBrace | .comment | .blockComment => true
    | _ => false

def elementLength (ts : List Token) : Nat := runLength stopsElement ts

end DiagramText.Lookahead
