import DiagramText.Decimal.Rounding

/-!
# The shortest decimal of a number

Among the decimals that round to a given number of single precision, the
shortest has the fewest digits, and of those it is the nearest. It is written
in full, without an exponent.
-/

set_option autoImplicit false

namespace DiagramText.Shortest

/-- The reals that round to a number, in quarters of its last place: from `low` to `high`, ends
included or not. The number itself is `mid`. -/
structure Interval where
  low : Nat
  mid : Nat
  high : Nat
  exponent : Int
  closed : Bool

def interval (f : Rounding.Format) (magnitude : Nat) : Interval :=
  let u := Rounding.unpack f magnitude
  let atPower := u.1 = Nat.pow 2 (f.precision - 1) ∧ f.minExponent < u.2
  ⟨if atPower then 4 * u.1 - 1 else 4 * u.1 - 2, 4 * u.1, 4 * u.1 + 2, u.2 - 2, u.1 % 2 = 0⟩

def ratio (n : Nat) (two ten : Int) : Nat × Nat :=
  let s := Rounding.scaled n 1 (-two)
  if 0 ≤ ten then (s.1, s.2 * Nat.pow 10 ten.toNat) else (s.1 * Nat.pow 10 (-ten).toNat, s.2)

def holds (i : Interval) (k : Int) (n : Nat) : Bool :=
  let low := ratio i.low i.exponent k
  let high := ratio i.high i.exponent k
  if i.closed then decide (low.1 ≤ n * low.2) && decide (n * high.2 ≤ high.1)
  else decide (low.1 < n * low.2) && decide (n * high.2 < high.1)

def onGrid? (i : Interval) (k : Int) : Option Nat :=
  let mid := ratio i.mid i.exponent k
  let n := mid.1 / mid.2
  let below := n != 0 && holds i k n
  let above := holds i k (n + 1)
  if below ∧ above then some (if 2 * (mid.1 % mid.2) < mid.2 then n else n + 1)
  else if below then some n
  else if above then some (n + 1)
  else none

def digits? (f : Rounding.Format) (magnitude : Nat) : Option (Nat × Int) :=
  let i := interval f magnitude
  (List.range 110).findSome? fun (n : Nat) =>
    let k : Int := 45 - (n : Int)
    (onGrid? i k).map fun d => (d, k)

def positional (n : Nat) (k : Int) : String :=
  let ds := Nat.toDigits 10 n
  if 0 ≤ k then String.ofList (ds ++ List.replicate k.toNat '0')
  else
    let places := (-k).toNat
    let padded := List.replicate (places + 1 - ds.length) '0' ++ ds
    String.ofList (padded.take (padded.length - places)) ++ "." ++
      String.ofList (padded.drop (padded.length - places))

def display (x : Float32) : String :=
  let f := Rounding.single
  let bits := x.toBits.toNat
  let magnitude := bits % f.signBit
  let sign := if f.signBit ≤ bits then "-" else ""
  if f.infinityBits < magnitude then "NaN"
  else if magnitude = f.infinityBits then sign ++ "inf"
  else if magnitude = 0 then sign ++ "0"
  else
    match digits? f magnitude with
    | some (n, k) => sign ++ positional n k
    | none => sign ++ "0"

end DiagramText.Shortest
