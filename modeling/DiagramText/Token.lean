import DiagramText.Span
import DiagramText.Text.Quoted
import DiagramText.Text.Width

/-!
# Tokens

Every character of a document lies in exactly one token, blanks and comments
included, so the tokens of a document spell it out again. A token keeps its
characters and the offset of the first; its span follows from them.
-/

set_option autoImplicit false

namespace DiagramText

inductive Connector where
  | forward
  | backward
  | bidirectional
  | undirected
  deriving DecidableEq, Repr

namespace Connector

def text : Connector → String
  | forward => "->"
  | backward => "<-"
  | bidirectional => "<->"
  | undirected => "--"

def name : Connector → String
  | forward => "Forward"
  | backward => "Backward"
  | bidirectional => "Bidirectional"
  | undirected => "Undirected"

end Connector

inductive TokenKind where
  | identifier
  | string
  | blockString
  | dot
  | colon
  | semicolon
  | leftBrace
  | rightBrace
  | leftBracket
  | rightBracket
  | arrow
  | leftArrow
  | doubleArrow
  | line
  | newline
  | whitespace
  | comment
  | blockComment
  | symbol
  | error
  deriving DecidableEq, Repr

namespace TokenKind

/-- Blanks and comments, which carry no meaning for the grammar. -/
def isTrivia : TokenKind → Bool
  | whitespace | comment | blockComment => true
  | _ => false

def connector? : TokenKind → Option Connector
  | arrow => some .forward
  | leftArrow => some .backward
  | doubleArrow => some .bidirectional
  | line => some .undirected
  | _ => none

def isConnector (k : TokenKind) : Bool := k.connector?.isSome

/-- The name in a listing of the tree. -/
def name : TokenKind → String
  | identifier => "Identifier"
  | string => "String"
  | blockString => "BlockString"
  | dot => "Dot"
  | colon => "Colon"
  | semicolon => "Semicolon"
  | leftBrace => "LeftBrace"
  | rightBrace => "RightBrace"
  | leftBracket => "LeftBracket"
  | rightBracket => "RightBracket"
  | arrow => "Arrow"
  | leftArrow => "LeftArrow"
  | doubleArrow => "DoubleArrow"
  | line => "Line"
  | newline => "Newline"
  | whitespace => "Whitespace"
  | comment => "Comment"
  | blockComment => "BlockComment"
  | symbol => "Symbol"
  | error => "Error"

def describe : TokenKind → String
  | identifier => "identifier"
  | string => "string"
  | blockString => "block string"
  | dot => "`.`"
  | colon => "`:`"
  | semicolon => "`;`"
  | leftBrace => "`\x7b`"
  | rightBrace => "`\x7d`"
  | leftBracket => "`[`"
  | rightBracket => "`]`"
  | arrow => "`->`"
  | leftArrow => "`<-`"
  | doubleArrow => "`<->`"
  | line => "`--`"
  | newline => "newline"
  | whitespace => "whitespace"
  | comment => "comment"
  | blockComment => "block comment"
  | symbol => "symbol"
  | error => "invalid token"

end TokenKind

structure Token where
  kind : TokenKind
  start : Nat
  text : List Char
  deriving DecidableEq, Repr

namespace Token

def stop (t : Token) : Nat := t.start + Text.byteSize t.text

def span (t : Token) : Span := ⟨t.start, t.stop⟩

def isTrivia (t : Token) : Bool := t.kind.isTrivia

def spelling (t : Token) : String := String.ofList t.text

def display (t : Token) : String :=
  t.kind.name ++ "@" ++ t.span.display ++ " " ++ Text.quoted t.text

end Token

end DiagramText
