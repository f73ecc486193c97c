/-!
# Diagnostic codes

Each kind of problem has a code. The first digit tells the pass that finds
it: `E0` the scanner, `E1` the grammar, `E2` the checks on a finished tree.
-/

set_option autoImplicit false

namespace DiagramText

inductive Code where
  | unterminatedString
  | unexpectedCharacter
  | invalidEscape
  | unterminatedComment
  | unexpectedToken
  | unexpectedEnd
  | unclosedBlock
  | missingEndpoint
  | anonymousBlock
  | nestingTooDeep
  | unknownKeyword
  | invalidStyleValue
  | unknownShapeType
  deriving DecidableEq, Repr

namespace Code

def all : List Code :=
  [unterminatedString, unexpectedCharacter, invalidEscape, unterminatedComment, unexpectedToken,
    unexpectedEnd, unclosedBlock, missingEndpoint, anonymousBlock, nestingTooDeep,
    unknownKeyword, invalidStyleValue, unknownShapeType]

/-- The pass of the program that reports a code. -/
inductive Phase where
  | scan
  | parse
  | validate
  deriving DecidableEq, Repr

def text : Code → String
  | unterminatedString => "E001"
  | unexpectedCharacter => "E002"
  | invalidEscape => "E003"
  | unterminatedComment => "E004"
  | unexpectedToken => "E100"
  | unexpectedEnd => "E101"
  | unclosedBlock => "E102"
  | missingEndpoint => "E103"
  | anonymousBlock => "E104"
  | nestingTooDeep => "E105"
  | unknownKeyword => "E200"
  | invalidStyleValue => "E201"
  | unknownShapeType => "E202"

def ofText? (word : String) : Option Code := all.find? (·.text == word)

def description : Code → String
  | unterminatedString => "unterminated string literal"
  | unexpectedCharacter => "unexpected character"
  | invalidEscape => "invalid escape sequence"
  | unterminatedComment => "unterminated block comment"
  | unexpectedToken => "unexpected token"
  | unexpectedEnd => "unexpected end of input"
  | unclosedBlock => "unclosed block"
  | missingEndpoint => "missing connection endpoint"
  | anonymousBlock => "anonymous block outside a shape"
  | nestingTooDeep => "nesting too deep"
  | unknownKeyword => "unknown keyword"
  | invalidStyleValue => "invalid style value"
  | unknownShapeType => "unknown shape type"

def phase : Code → Phase
  | unterminatedString | unexpectedCharacter | invalidEscape | unterminatedComment => .scan
  | unknownKeyword | invalidStyleValue | unknownShapeType => .validate
  | _ => .parse

def isLexical (c : Code) : Bool := c.phase == .scan

end Code

end DiagramText
