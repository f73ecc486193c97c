import DiagramText.Decimal.Numeral
import DiagramText.Literal
import DiagramText.Text.Caseless
import DiagramText.Tree

/-!
# Labels and values

A label or a value that is one literal stands for the text of that literal;
any other is taken as written.
-/

set_option autoImplicit false

namespace DiagramText

inductive ValueKind where
  | boolean
  | number
  | text
  | array
  deriving DecidableEq, Repr

def ValueKind.name : ValueKind → String
  | boolean => "Boolean"
  | number => "Number"
  | text => "Text"
  | array => "Array"

namespace Tree

/-- The text that a label or a value stands for. -/
def cooked (t : Tree) : String :=
  match t.significant with
  | [s] =>
    if s.kind = .string then .ofList (Literal.unescape s.text)
    else if s.kind = .blockString then .ofList (Literal.blockText s.text)
    else t.text
  | _ => t.text

def isQuoted (t : Tree) : Bool :=
  match t.significant with
  | [s] => s.kind == .string || s.kind == .blockString
  | _ => false

def valueKind (t : Tree) : ValueKind :=
  if (t.child? .array).isSome then .array
  else if t.isQuoted then .text
  else if Text.listed ["true", "false"] t.text then .boolean
  else if (Decimal.readNumeral? t.chars).isSome then .number
  else .text

def isClosedArray (t : Tree) : Bool := t.hasToken .rightBracket

def isClosedBlock (t : Tree) : Bool := t.hasToken .rightBrace

def isMissing (t : Tree) : Bool := t.span.isEmpty

end Tree

end DiagramText
