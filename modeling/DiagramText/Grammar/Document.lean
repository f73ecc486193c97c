import DiagramText.Grammar.Lookahead

/-!
# The grammar of documents

A document is a list of statements: shapes, connections, properties and
blocks. No text is refused: what cannot be read is kept in an error node up
to the end of its statement, with one diagnostic. Braces and brackets nest to
`maxNesting` levels; a deeper group is kept unread in one error node.
-/

set_option autoImplicit false

namespace DiagramText.Grammar

open Rule Lookahead

/-- The deepest nesting of braces and brackets that is read. -/
def maxNesting : Nat := 256

/-- What a statement list belongs to. -/
inductive Scope where
  | document
  | shape
  | block
  deriving DecidableEq, Repr

def discard : Rule := node .error (takeCounted (statementLength? 0))

def unexpected (c : Cursor) : Diagnostic :=
  .record .unexpectedToken
    ("unexpected " ++ (c.current?.map (·.describe)).getD "end of input") c.span

def recover : Rule := seq [report unexpected, discard]

def strayBrace : Rule :=
  seq [
    report fun c =>
      ⟨.error, some .unexpectedToken, "unexpected `\x7d`", [⟨c.span, "no block to close", true⟩],
        some "remove the `\x7d` or add the matching `\x7b`"⟩,
    node .error bump]

def tooDeep (opening closing : TokenKind) : Rule :=
  seq [
    report fun c =>
      .record .nestingTooDeep ("nesting deeper than " ++ maxNesting.repr ++ " levels") c.span,
    node .error (takeCounted (groupLength? opening closing 0))]

def missingEndpoint (message : String) : Rule :=
  seq [
    report fun c => .record .missingEndpoint message (.empty c.offset),
    node .error skip]

/-- A statement is followed by a terminator or the end of the document. A token that the scanner
has already reported is discarded in silence. -/
def terminated : Rule := fun c =>
  match c.peek? with
  | none => skip c
  | some k =>
    if isTerminator k then skip c
    else if k = .error then seq [trivia, discard] c
    else seq [trivia, recover] c

def unclosedArray (opening : Span) (c : Cursor) : Diagnostic :=
  ⟨.error, some .unexpectedEnd, "unclosed array",
    [⟨.empty c.offset, "expected `]`", true⟩, ⟨opening, "array opened here", false⟩], none⟩

def closeArray (opening : Span) : Rule := fun c =>
  if c.current? = some .rightBracket then bump c else report (unclosedArray opening) c

def inArray (c : Cursor) : Bool :=
  c.current?.any fun k => !(k == .rightBracket || k == .rightBrace)

def element (nested : Rule) : Rule := fun c =>
  if c.tokens.head?.any isSeparator then bump c
  else if c.current? = some .leftBracket then node .attributeValue nested c
  else node .attributeValue (take elementLength) c

/-- An array at the cursor, with room for so many levels. -/
def array : Nat → Rule
  | 0 => tooDeep .leftBracket .rightBracket
  | n + 1 => fun c =>
    node .array
      (seq [bump, trivia, many inArray (seq [element (array n), trivia]), closeArray c.span]) c

def label : Rule :=
  whenNext (· == .colon)
    (seq [trivia, bump,
      whenNext startsText (seq [trivia, node .labelDefinition (take textLength)])])

def value (array : Rule) : Rule :=
  whenNext (· == .colon)
    (seq [trivia, bump, fun c =>
      if c.peek? = some .leftBracket then seq [trivia, node .attributeValue array] c
      else whenNext startsText (seq [trivia, node .attributeValue (take textLength)]) c])

def body (braced : Rule) : Rule := whenNext (· == .leftBrace) (seq [trivia, braced])

section

-- the rules for braced bodies and arrays one level down
variable (braced : NodeKind → Scope → Rule) (array : Rule)

def shapeDefinition : Rule :=
  node .shapeDefinition
    (seq [node .shapeId (take pathLength), label, body (braced .subShapeDefinition .shape)])

def property : Rule :=
  node .property
    (seq [node .propertyKey (take pathLength), value array,
      body (braced .blockDefinition .block)])

def endpoint : Rule := fun c =>
  if c.current? = some .leftBrace then braced .inlineShapeDefinition .shape c
  else node .shapeId (take pathLength) c

def source : Rule := fun c =>
  match c.current? with
  | some k =>
    if k.isConnector then missingEndpoint ("expected a shape before " ++ k.describe) c
    else endpoint braced c
  | none => endpoint braced c

def target (connector : TokenKind) : Rule := fun c =>
  match c.current? with
  | some .identifier | some .string | some .leftBrace => endpoint braced c
  | some .error => node .error bump c
  | _ => missingEndpoint ("expected a shape after " ++ connector.describe) c

def link : Rule := fun c =>
  match c.peek? with
  | some k => seq [trivia, bump, trivia, target braced k] c
  | none => skip c

def connection : Rule :=
  node .shapeConnection
    (seq [source braced, many (·.peek?.any (·.isConnector)) (link braced), label,
      body (braced .blockDefinition .block)])

def anonymousBlock (c : Cursor) : Diagnostic :=
  ⟨.error, some .anonymousBlock, "anonymous block outside a shape",
    [⟨c.span, "this block has no owning shape", true⟩],
    some "give the block a name, for example `group: \x7b ... \x7d`"⟩

def bareBlock : Scope → Rule
  | .document => seq [report anonymousBlock, braced .subShapeDefinition .shape]
  | .shape => braced .subShapeDefinition .shape
  | .block => recover

def named (scope : Scope) : Rule := fun c =>
  let path := Lookahead.path c.tokens
  if (c.drop path.length).peek?.any (·.isConnector) then connection braced c
  else if path.hasKeyword ∨ scope = .block then property braced array c
  else shapeDefinition braced c

def statement (scope : Scope) : Rule := fun c =>
  match c.current? with
  | some .leftBrace =>
    match blockBeforeConnector? c with
    | some true => connection braced c
    | some false => bareBlock braced scope c
    | none => halt c
  | some .identifier | some .string => named braced array scope c
  | some .error => discard c
  | some k => if k.isConnector then connection braced c else recover c
  | none => skip c

def item (scope : Scope) : Rule := fun c =>
  match c.current? with
  | some .newline | some .semicolon => bump c
  | some .rightBrace => strayBrace c
  | _ => seq [statement braced array scope, terminated] c

def inStatements (scope : Scope) (c : Cursor) : Bool :=
  c.current?.any fun k => scope == .document || k != .rightBrace

def statements (scope : Scope) : Rule :=
  seq [trivia, many (inStatements scope) (seq [item braced array scope, trivia])]

end

def unclosedBlock (opening : Span) (c : Cursor) : Diagnostic :=
  ⟨.error, some .unclosedBlock, "unclosed block",
    [⟨.empty c.offset, "expected `\x7d`", true⟩, ⟨opening, "block opened here", false⟩], none⟩

def closeBlock (opening : Span) : Rule := fun c =>
  if c.current? = some .rightBrace then bump c else report (unclosedBlock opening) c

/-- A braced body at the cursor, with room for so many levels. -/
def braced : Nat → NodeKind → Scope → Rule
  | 0, _, _ => tooDeep .leftBrace .rightBrace
  | n + 1, kind, scope => fun c =>
    node kind (seq [bump, statements (braced n) (array n) scope, closeBlock c.span]) c

def document : Rule := statements (braced maxNesting) (array maxNesting) .document

end DiagramText.Grammar
