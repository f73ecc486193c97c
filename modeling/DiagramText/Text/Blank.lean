import DiagramText.Text.CodePoints

/-!
# Blank characters

A character is blank when it has the White_Space property. Trimming takes
blanks off both ends of a text and leaves those inside it.
-/

set_option autoImplicit false

namespace DiagramText.Text

def blankIntervals : List (Nat × Nat) := [
  (0x9, 0xD), (0x20, 0x20), (0x85, 0x85), (0xA0, 0xA0), (0x1680, 0x1680), (0x2000, 0x200A),
  (0x2028, 0x2029), (0x202F, 0x202F), (0x205F, 0x205F), (0x3000, 0x3000)]

def isBlank (c : Char) : Bool := within blankIntervals c

/-- Control characters: the C0 and C1 sets and DEL. -/
def isControl (c : Char) : Bool := within [(0x0, 0x1F), (0x7F, 0x9F)] c

def trimStart (cs : List Char) : List Char := cs.dropWhile isBlank

def trimEnd (cs : List Char) : List Char := (cs.reverse.dropWhile isBlank).reverse

def trim (cs : List Char) : List Char := trimEnd (trimStart cs)

end DiagramText.Text
