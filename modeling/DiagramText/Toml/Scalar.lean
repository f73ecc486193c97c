import DiagramText.Decimal.Rounding
import DiagramText.Text.Radix
import DiagramText.Toml.Quoted

/-!
# TOML words

Booleans, numbers, dates and times are single words. A number has underscores
only between its digits and no needless zero in front, a date is one of the
calendar, and the seconds of a time may be left out. Numbers may be too large
for their format here, since only those that are looked at have to fit.
-/

set_option autoImplicit false

namespace DiagramText.Toml.Scalar

/-- Digits of a base, with single underscores between them. -/
def digits? (base : Nat) : List Char → Option (List Nat)
  | [] => none
  | [c] => (Text.digitValue? base c).map ([·])
  | c :: '_' :: cs => do return (← Text.digitValue? base c) :: (← digits? base cs)
  | c :: cs => do return (← Text.digitValue? base c) :: (← digits? base cs)

def whole? (cs : List Char) : Option (List Nat) :=
  match cs with
  | '0' :: _ :: _ => none
  | _ => digits? 10 cs

def isDigitPart (c : Char) : Bool := c.isDigit || c == '_'

def based? : List Char → Option Value
  | '0' :: b :: cs =>
    let base := if b = 'x' then 16 else if b = 'o' then 8 else if b = 'b' then 2 else 0
    (digits? base cs).map fun ds => .integer (Text.ofDigits base ds)
  | _ => none

def exponent? : List Char → Option Int
  | [] => some 0
  | e :: cs =>
    if e = 'e' ∨ e = 'E' then
      let signed := Decimal.takeSign cs
      (digits? 10 signed.2).map fun ds =>
        let n : Int := Text.ofDigits 10 ds
        if signed.1 then -n else n
    else none

def fraction? : List Char → Option (List Nat × List Char)
  | '.' :: cs => (digits? 10 (cs.takeWhile isDigitPart)).map (·, cs.dropWhile isDigitPart)
  | cs => some ([], cs)

def decimal? (cs : List Char) : Option Value := do
  let signed := Decimal.takeSign cs
  let whole ← whole? (signed.2.takeWhile isDigitPart)
  let rest := signed.2.dropWhile isDigitPart
  if rest.isEmpty then
    let n : Int := Text.ofDigits 10 whole
    return .integer (if signed.1 then -n else n)
  else
    let (fraction, rest) ← fraction? rest
    let exponent ← exponent? rest
    let x := Rounding.toDouble
      ⟨signed.1, Text.ofDigits 10 (whole ++ fraction), exponent - fraction.length⟩
    return .float x.isInf

def special? (cs : List Char) : Option Value :=
  let word := (Decimal.takeSign cs).2
  if word = ['i', 'n', 'f'] ∨ word = ['n', 'a', 'n'] then some (.float false) else none

def two? : List Char → Option (Nat × List Char)
  | a :: b :: cs =>
    if a.isDigit && b.isDigit then some (Decimal.digitsValue 0 [a, b], cs) else none
  | _ => none

def oneOf? (allowed : List Char) : List Char → Option (List Char)
  | c :: cs => if allowed.contains c then some cs else none
  | [] => none

def daysOfMonth (year month : Nat) : Nat :=
  if month = 2 then
    if year % 4 = 0 ∧ (year % 100 ≠ 0 ∨ year % 400 = 0) then 29 else 28
  else if month = 4 ∨ month = 6 ∨ month = 9 ∨ month = 11 then 30
  else 31

def date? (cs : List Char) : Option (List Char) := do
  let (century, cs) ← two? cs
  let (year, cs) ← two? cs
  let (month, cs) ← two? (← oneOf? ['-'] cs)
  let (day, cs) ← two? (← oneOf? ['-'] cs)
  if 1 ≤ month ∧ month ≤ 12 ∧ 1 ≤ day ∧ day ≤ daysOfMonth (100 * century + year) month then
    some cs
  else none

def secondParts? : List Char → Option (List Char)
  | '.' :: cs => if (cs.takeWhile Char.isDigit).isEmpty then none
    else some (cs.dropWhile Char.isDigit)
  | cs => some cs

def time? (cs : List Char) : Option (List Char) := do
  let (hour, cs) ← two? cs
  let (minute, cs) ← two? (← oneOf? [':'] cs)
  if 24 ≤ hour ∨ 60 ≤ minute then none
  else
    match cs with
    | ':' :: cs =>
      let (second, cs) ← two? cs
      if second ≤ 60 then secondParts? cs else none
    | cs => some cs

def isOffset : List Char → Bool
  | [] => true
  | [z] => z == 'Z' || z == 'z'
  | sign :: cs =>
    (sign == '+' || sign == '-') &&
      match two? cs with
      | some (hour, ':' :: cs) => hour < 24 &&
        match two? cs with
        | some (minute, []) => minute < 60
        | _ => false
      | _ => false

def isMoment (cs : List Char) : Bool :=
  match date? cs with
  | some [] => true
  | some rest => ((oneOf? ['T', 't', ' '] rest).bind time?).any isOffset
  | none => (time? cs).any List.isEmpty

/-- The characters of a word. A space may stand between a date and a time. -/
def wordLength (cs : List Char) : Nat :=
  let n := (cs.takeWhile isWordPart).length
  match cs.drop n with
  | ' ' :: c :: rest =>
    if date? (cs.take n) == some [] && c.isDigit then
      n + 1 + ((c :: rest).takeWhile isWordPart).length
    else n
  | _ => n

def ofWord? (word : List Char) : Option Value :=
  if word = "true".toList then some (.boolean true)
  else if word = "false".toList then some (.boolean false)
  else if isMoment word then some .moment
  else ((special? word).or (based? word)).or (decimal? word)

def read? : Reader (Except Fault Value) := fun cs =>
  let n := wordLength cs
  if n = 0 then none
  else
    match ofWord? (cs.take n) with
    | some v => some (.ok v, cs.drop n)
    | none => some (.error .malformed, cs.drop n)

end DiagramText.Toml.Scalar
