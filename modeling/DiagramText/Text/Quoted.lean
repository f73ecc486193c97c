import DiagramText.Text.Unshown

/-!
# Quoted listings of text

A listing shows a text between double quotes on one line. A quote and a
backslash take a backslash, the four common controls have short names, and
every other character without a shape is written by its number.
-/

set_option autoImplicit false

namespace DiagramText.Text

def hexDigits (n : Nat) : List Char := Nat.toDigits 16 n

def listChar (c : Char) : List Char :=
  if c = '\x00' then ['\\', '0']
  else if c = '\t' then ['\\', 't']
  else if c = '\r' then ['\\', 'r']
  else if c = '\n' then ['\\', 'n']
  else if c = '"' then ['\\', '"']
  else if c = '\\' then ['\\', '\\']
  else if isUnshown c then ['\\', 'u', '{'] ++ hexDigits c.toNat ++ ['}']
  else [c]

def listChars : List Char → List Char
  | [] => []
  | c :: cs => listChar c ++ listChars cs

/-- The text between double quotes, on one line. -/
def quoted (cs : List Char) : String := String.ofList ('"' :: listChars cs ++ ['"'])

end DiagramText.Text
