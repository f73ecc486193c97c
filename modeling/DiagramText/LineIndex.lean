import DiagramText.Text.Search
import DiagramText.Text.Width

/-!
# Lines and columns

Editors address a text by line and UTF-16 column, spans by byte offset. The
index converts between the two. An offset inside a character counts the
characters that start before it, and a column inside a surrogate pair goes to
the start of its character. Lines and columns are kept in 32 bits, and what
does not fit is cut off.
-/

set_option autoImplicit false

namespace DiagramText

structure Position where
  line : UInt32
  column : UInt32
  deriving DecidableEq, Repr

def Position.ofNat (line column : Nat) : Position := ⟨.ofNat line, .ofNat column⟩

def Position.display (p : Position) : String :=
  (p.line + 1).toNat.repr ++ ":" ++ (p.column + 1).toNat.repr

namespace LineIndex

/-- The lines of a text without their newlines; a newline at the end opens an empty line. -/
def lines (text : List Char) : List (List Char) := Text.pieces '\n' text

def lineCount (text : List Char) : Nat := (lines text).length

def unitsBefore (offset : Nat) : List Char → Nat
  | [] => 0
  | c :: cs =>
    if offset = 0 then 0 else Text.unitSize c + unitsBefore (offset - c.utf8Size) cs

def positionIn (line offset : Nat) : List (List Char) → Position
  | [] => .ofNat line 0
  | [last] => .ofNat line (unitsBefore offset last)
  | l :: rest =>
    if offset ≤ Text.byteSize l then .ofNat line (unitsBefore offset l)
    else positionIn (line + 1) (offset - Text.byteSize l - 1) rest

/-- The position of a byte offset; offsets past the end are at the end. -/
def position (text : List Char) (offset : Nat) : Position := positionIn 0 offset (lines text)

def unitOffset (text : List Char) (offset : Nat) : Nat := unitsBefore offset text

def byteOfColumn? (column : Nat) : List Char → Option Nat
  | [] => if column = 0 then some 0 else none
  | c :: cs =>
    if column < Text.unitSize c then some 0
    else (byteOfColumn? (column - Text.unitSize c) cs).map (c.utf8Size + ·)

def offsetIn? (line column : Nat) : List (List Char) → Option Nat
  | [] => none
  | l :: rest =>
    match line with
    | 0 => byteOfColumn? column l
    | n + 1 => (offsetIn? n column rest).map (Text.byteSize l + 1 + ·)

def offset? (text : List Char) (p : Position) : Option Nat :=
  offsetIn? p.line.toNat p.column.toNat (lines text)

end LineIndex

end DiagramText
