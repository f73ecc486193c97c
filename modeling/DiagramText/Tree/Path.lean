import DiagramText.Id
import DiagramText.Keyword
import DiagramText.Literal
import DiagramText.Tree

/-!
# Paths in a tree

The path of a shape or a property is split at its dots. A segment that is one
quoted string stands for the text of that string; any other segment is taken
as written, without the trivia around it. The first bare reserved word
divides the path of a property into its target and its keyword path.
-/

set_option autoImplicit false

namespace DiagramText

structure Segment where
  text : String
  quoted : Bool
  deriving DecidableEq, Repr

namespace Segment

def splitAtDots : List Token → List (List Token)
  | [] => [[]]
  | t :: ts =>
    match splitAtDots ts with
    | [] => [[t]]
    | piece :: pieces => if t.kind = .dot then [] :: piece :: pieces else (t :: piece) :: pieces

def trimTrivia (ts : List Token) : List Token :=
  ((ts.dropWhile (·.isTrivia)).reverse.dropWhile (·.isTrivia)).reverse

def ofTokens? (piece : List Token) : Option Segment :=
  match trimTrivia piece with
  | [] => none
  | [t] =>
    if t.kind = .string then some ⟨.ofList (Literal.unescape t.text), true⟩
    else some ⟨t.spelling, false⟩
  | ts => some ⟨.ofList (ts.flatMap (·.text)), false⟩

def isKeyword (s : Segment) : Bool := !s.quoted && Keyword.isReserved s.text

end Segment

namespace Tree

def pathSegments (t : Tree) : List Segment :=
  (Segment.splitAtDots t.tokens).filterMap Segment.ofTokens?

/-- The segments of a path node as texts, without quotes. -/
def segments (t : Tree) : List String := t.pathSegments.map (·.text)

def id (t : Tree) : Id := .ofSegments t.segments

def keywordIndex? (t : Tree) : Option Nat := t.pathSegments.findIdx? Segment.isKeyword

def keyword? (t : Tree) : Option String := (t.pathSegments.find? Segment.isKeyword).map (·.text)

/-- Segments before the first bare reserved word; none if there is no such word. -/
def targetPath (t : Tree) : List String := t.segments.take (t.keywordIndex?.getD 0)

def keywordPath (t : Tree) : List String := t.segments.drop (t.keywordIndex?.getD 0)

end Tree

end DiagramText
