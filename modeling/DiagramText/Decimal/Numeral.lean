/-!
# Decimal numerals

A numeral is an optional sign and digits with an optional point and an
optional exponent, or one of the names of infinity and of the undefined
number in any case. Its value is kept exactly, as a whole significand times a
power of ten.
-/

set_option autoImplicit false

namespace DiagramText

/-- The number `±significand · 10 ^ exponent`. -/
structure Decimal where
  negative : Bool
  significand : Nat
  exponent : Int
  deriving DecidableEq, Repr

namespace Decimal

inductive Numeral where
  | undefined
  | infinite (negative : Bool)
  | finite (value : Decimal)
  deriving DecidableEq, Repr

/-- The value of a row of digits, after the digits read before it. -/
def digitsValue (before : Nat) (ds : List Char) : Nat :=
  ds.foldl (fun n d => 10 * n + (d.toNat - '0'.toNat)) before

def takeSign : List Char → Bool × List Char
  | '-' :: cs => (true, cs)
  | '+' :: cs => (false, cs)
  | cs => (false, cs)

def takeDigits (cs : List Char) : List Char × List Char :=
  (cs.takeWhile Char.isDigit, cs.dropWhile Char.isDigit)

def takeFraction : List Char → List Char × List Char
  | '.' :: cs => takeDigits cs
  | cs => ([], cs)

def takeWhole? (cs : List Char) : Option (Bool × List Char) :=
  let signed := takeSign cs
  if signed.2.isEmpty ∨ ¬ signed.2.all Char.isDigit then none else some signed

def signedValue (negative : Bool) (n : Nat) : Int := if negative then -n else n

def readInt? (cs : List Char) : Option Int :=
  (takeWhole? cs).map fun (negative, ds) => signedValue negative (digitsValue 0 ds)

def checked64 (n : Int) : Option Int :=
  if -9223372036854775808 ≤ n ∧ n ≤ 9223372036854775807 then some n else none

def appendDigit? (negative : Bool) (n : Int) (d : Char) : Option Int :=
  (checked64 (10 * n)).bind fun shifted =>
    checked64 (shifted + signedValue negative (d.toNat - '0'.toNat))

def readInt64? (cs : List Char) : Option Int :=
  (takeWhole? cs).bind fun (negative, ds) => ds.foldlM (appendDigit? negative) 0

def readExponent? : List Char → Option Int
  | [] => some 0
  | c :: cs => if c = 'e' ∨ c = 'E' then readInt? cs else none

def readUnsigned? (negative : Bool) (cs : List Char) : Option Decimal :=
  let whole := takeDigits cs
  let fraction := takeFraction whole.2
  if whole.1.isEmpty ∧ fraction.1.isEmpty then none
  else (readExponent? fraction.2).map fun e =>
    ⟨negative, digitsValue (digitsValue 0 whole.1) fraction.1, e - fraction.1.length⟩

def readNumeral? (cs : List Char) : Option Numeral :=
  let signed := takeSign cs
  let word := signed.2.map Char.toLower
  if word = ['n', 'a', 'n'] then some .undefined
  else if word = "inf".toList ∨ word = "infinity".toList then some (.infinite signed.1)
  else (readUnsigned? signed.1 signed.2).map .finite

end Decimal

end DiagramText
