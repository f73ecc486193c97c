import DiagramText.Decimal.Numeral

/-!
# Rounding to binary floating point

A ratio is rounded to the nearest number of a binary format, ties to even.
The rounded number is given by the bits of its magnitude: the numbers of a
format are ordered like their bits, and infinity follows the largest.
-/

set_option autoImplicit false

namespace DiagramText.Rounding

structure Format where
  precision : Nat
  exponentBits : Nat

def single : Format := ⟨24, 8⟩

def double : Format := ⟨53, 11⟩

namespace Format

def minExponent (f : Format) : Int := 3 - Int.pow 2 (f.exponentBits - 1) - f.precision

def infinityBits (f : Format) : Nat := (Nat.pow 2 f.exponentBits - 1) * Nat.pow 2 (f.precision - 1)

def undefinedBits (f : Format) : Nat := f.infinityBits + Nat.pow 2 (f.precision - 2)

def signBit (f : Format) : Nat := Nat.pow 2 (f.exponentBits + f.precision - 1)

end Format

/-- The whole number nearest to a ratio, ties to even. -/
def nearest (num den : Nat) : Nat :=
  let q := num / den
  let r := num % den
  if 2 * r > den ∨ (2 * r = den ∧ q % 2 = 1) then q + 1 else q

def scaled (num den : Nat) (e : Int) : Nat × Nat :=
  if 0 ≤ e then (num, den * Nat.pow 2 e.toNat) else (num * Nat.pow 2 (-e).toNat, den)

def leadingExponent (num den : Nat) : Int :=
  let e : Int := (num.log2 : Int) - den.log2
  let s := scaled num den e
  if s.2 ≤ s.1 then e else e - 1

def ratioBits (f : Format) (num den : Nat) : Nat :=
  if num = 0 then 0
  else
    let e := max (leadingExponent num den - (f.precision - 1 : Int)) f.minExponent
    let s := scaled num den e
    min ((e - f.minExponent).toNat * Nat.pow 2 (f.precision - 1) + nearest s.1 s.2)
      f.infinityBits

/-- Bits of the magnitude nearest to a decimal. Exponents far outside every format are settled
without building the power of ten. -/
def decimalBits (f : Format) (d : Decimal) : Nat :=
  if d.significand = 0 then 0
  else if 400 < d.exponent then f.infinityBits
  else if d.exponent + d.significand.log2 / 3 + 2 < -400 then 0
  else if 0 ≤ d.exponent then ratioBits f (d.significand * Nat.pow 10 d.exponent.toNat) 1
  else ratioBits f d.significand (Nat.pow 10 (-d.exponent).toNat)

def signedBits (f : Format) (negative : Bool) (magnitude : Nat) : Nat :=
  if negative then magnitude + f.signBit else magnitude

def numeralBits (f : Format) : Decimal.Numeral → Nat
  | .undefined => f.undefinedBits
  | .infinite negative => signedBits f negative f.infinityBits
  | .finite d => signedBits f d.negative (decimalBits f d)

def toSingle (n : Decimal.Numeral) : Float32 := .ofBits (.ofNat (numeralBits single n))

def toDouble (d : Decimal) : Float :=
  .ofBits (.ofNat (signedBits double d.negative (decimalBits double d)))

def unpack (f : Format) (magnitude : Nat) : Nat × Int :=
  let field := magnitude / Nat.pow 2 (f.precision - 1)
  let low := magnitude % Nat.pow 2 (f.precision - 1)
  if field = 0 then (low, f.minExponent)
  else (low + Nat.pow 2 (f.precision - 1), f.minExponent + field - 1)

def narrow (x : Float) : Float32 :=
  let bits := x.toBits.toNat
  let negative := decide (double.signBit ≤ bits)
  let magnitude := bits % double.signBit
  if double.infinityBits < magnitude then .ofBits (.ofNat single.undefinedBits)
  else if magnitude = double.infinityBits then
    .ofBits (.ofNat (signedBits single negative single.infinityBits))
  else
    let u := unpack double magnitude
    let s := scaled u.1 1 (-u.2)
    .ofBits (.ofNat (signedBits single negative (ratioBits single s.1 s.2)))

end DiagramText.Rounding
