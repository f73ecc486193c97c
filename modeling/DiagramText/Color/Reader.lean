import DiagramText.Color
import DiagramText.Color.Names
import DiagramText.Text.Blank
import DiagramText.Text.Radix

/-!
# Reading colours

A colour is written with hexadecimal digits after a number sign, by its name,
or as a function of components. Components are numbers, percentages, angles
or the word `none`. Comments may stand between the parts of a function.
-/

set_option autoImplicit false

namespace DiagramText.Color

inductive Fault where
  | wrongDigitCount
  | unknownForm
  | unknownName
  | noArguments
  | unknownComponent
  | unknownAngle
  | unknownAngleUnit
  | noComma
  | noClosing
  | noSpaceName
  | unknownSpace
  | trailingText
  deriving DecidableEq, Repr

def Fault.message : Fault → String
  | wrongDigitCount => "wrong number of hex digits"
  | unknownForm => "unknown color syntax"
  | unknownName => "unknown color identifier"
  | noArguments => "expected arguments"
  | unknownComponent => "unknown color component"
  | unknownAngle => "unknown angle"
  | unknownAngleUnit => "unknown angle dimension"
  | noComma => "expected comma"
  | noClosing => "expected closing parenthesis"
  | noSpaceName => "expected color space identifier"
  | unknownSpace => "unknown color space"
  | trailingText => "expected end of string"

/-- Reads from the front of a text. -/
abbrev Reader := StateT (List Char) (Except Fault)

namespace Reader

def afterComment? : List Char → Option (List Char)
  | '*' :: '/' :: cs => some cs
  | _ :: cs => afterComment? cs
  | [] => none

theorem afterComment?_shorter {cs rest : List Char} (h : afterComment? cs = some rest) :
    rest.length < cs.length := by
  fun_induction afterComment? cs with
  | case1 cs =>
    simp only [Option.some.injEq] at h
    subst h
    simp only [List.length_cons]
    omega
  | case2 _ cs _ ih =>
    have := ih h
    simp only [List.length_cons]
    omega
  | case3 => simp at h

def skip? (blank : Char → Bool) : List Char → Option (List Char)
  | '/' :: '*' :: cs =>
    match _h : afterComment? cs with
    | some rest => skip? blank rest
    | none => none
  | c :: cs => if blank c then skip? blank cs else some (c :: cs)
  | [] => some []
termination_by cs => cs.length
decreasing_by
  · have := afterComment?_shorter _h
    simp only [List.length_cons]
    omega
  · simp

def isSpace (c : Char) : Bool := c == ' ' || c == '\t' || c == '\r' || c == '\n'

def blanks : Reader Unit := modify fun cs => (skip? isSpace cs).getD cs

def charHere (c : Char) : Reader Bool := do
  match ← get with
  | d :: cs => if d = c then set cs; return true else return false
  | [] => return false

def char (c : Char) : Reader Bool := do
  match skip? (fun _ => false) (← get) with
  | some cs => set cs; charHere c
  | none => return false

def fraction (cs : List Char) : List Char × List Char :=
  match cs with
  | '.' :: d :: rest => if d.isDigit then Decimal.takeDigits (d :: rest) else ([], cs)
  | _ => ([], cs)

def exponent (cs : List Char) : Int × List Char :=
  match cs with
  | e :: rest =>
    let signed := Decimal.takeSign rest
    let digits := Decimal.takeDigits signed.2
    if (e = 'e' ∨ e = 'E') ∧ ¬ digits.1.isEmpty then
      let n : Int := Decimal.digitsValue 0 digits.1
      (if signed.1 then -n else n, digits.2)
    else (0, cs)
  | [] => (0, [])

def number? (cs : List Char) : Option (Float × List Char) :=
  let signed := Decimal.takeSign cs
  let whole := Decimal.takeDigits signed.2
  let part := fraction whole.2
  if whole.1.isEmpty ∧ part.1.isEmpty then none
  else
    let e := exponent part.2
    some (Rounding.toDouble
      ⟨signed.1, Decimal.digitsValue (Decimal.digitsValue 0 whole.1) part.1,
        e.1 - part.1.length⟩, e.2)

def number : Reader (Option Float) := do
  match (skip? (fun _ => false) (← get)).bind number? with
  | some (x, rest) => set rest; return some x
  | none => return none

def isNameChar (c : Char) : Bool := c.isAlpha || c == '_' || c == '-'

def wordPrefix : List Char → List Char
  | c :: d :: rest =>
    if !isNameChar c then []
    else if isNameChar d || (c != '-' && d.isDigit) then
      c :: d :: rest.takeWhile fun e => isNameChar e || e.isDigit
    else [c]
  | [c] => if isNameChar c then [c] else []
  | [] => []

/-- A word right here. It has a letter or an underscore among its first two characters. -/
def word : Reader (Option (List Char)) := do
  let cs ← get
  let w := wordPrefix cs
  if (w.take 2).all (· == '-') then return none
  else
    set (cs.drop w.length)
    return some w

def folded (w : List Char) : String :=
  .ofList (if w.length ≤ 32 then w.map Char.toLower else w)

inductive Value where
  | number (x : Float)
  | percent (x : Float)
  | measure (x : Float) (unit : List Char)
  | symbol (name : List Char)

def value : Reader (Option Value) := do
  match ← number with
  | some x =>
    if ← charHere '%' then return some (.percent x)
    match ← word with
    | some unit => return some (.measure x unit)
    | none => return some (.number x)
  | none => return (← word).map .symbol

def isNone (w : List Char) : Bool := w.map Char.toLower == ['n', 'o', 'n', 'e']

def component (factor percentFactor : Float) : Reader (Option Float) := do
  blanks
  match ← value with
  | some (.number x) => return some (x * factor)
  | some (.percent x) => return some (x * percentFactor)
  | some (.symbol w) => if isNone w then return none else throw .unknownComponent
  | _ => throw .unknownComponent

def pi : Float := 3.141592653589793

def degrees? (unit : List Char) : Option Float :=
  let unit := unit.map Char.toLower
  if unit = ['d', 'e', 'g'] then some 1
  else if unit = ['r', 'a', 'd'] then some (180 / pi)
  else if unit = ['g', 'r', 'a', 'd'] then some 0.9
  else if unit = ['t', 'u', 'r', 'n'] then some 360
  else none

def angle : Reader (Option Float) := do
  blanks
  match ← value with
  | some (.number x) => return some x
  | some (.symbol w) => if isNone w then return none else throw .unknownAngle
  | some (.measure x unit) =>
    match degrees? unit with
    | some factor => return some (x * factor)
    | none => throw .unknownAngleUnit
  | _ => throw .unknownAngle

def comma (needed : Bool) : Reader Unit := do
  blanks
  if needed then
    if !(← char ',') then throw .noComma

def clamp (low high x : Float) : Float := if x < low then low else if high < x then high else x

def atLeastZero (x : Float) : Float := if x ≤ 0 then 0 else x

def alpha (commas : Bool) : Reader (Option Float) := do
  blanks
  if ← char (if commas then ',' else '/') then
    let a ← component 1 0.01
    blanks
    return a.map (clamp 0 1)
  else return some 1

def opening : Reader Unit := do
  if !(← charHere '(') then throw .noArguments

def closing : Reader Unit := do
  if !(← char ')') then throw .noClosing

/-- A component in the precision in which colours are kept. -/
def kept : Option Float → Component
  | some x => ⟨Rounding.narrow x, false⟩
  | none => ⟨0, true⟩

/-- The end of a function: alpha and the closing parenthesis. -/
def finish (space : ColorSpace) (written : Notation) (commas : Bool)
    (a b c : Option Float) : Reader Color := do
  let opacity ← alpha commas
  closing
  return ⟨space, written, kept a, kept b, kept c, kept opacity⟩

/-- Red, green and blue as bytes or percentages, with commas or without. -/
def rgb : Reader Color := do
  opening
  let channel : Reader (Option Float) := do
    return (← component (1 / 255) 0.01).map (clamp 0 1)
  let r ← channel
  blanks
  let commas ← char ','
  let g ← channel
  comma commas
  let b ← channel
  finish .srgb .own commas r g b

def hsl : Reader Color := do
  opening
  let h ← angle
  let commas ← char ','
  let s := (← component 1 1).map atLeastZero
  comma commas
  let l ← component 1 1
  finish .hsl .own commas h s l

def hwb : Reader Color := do
  opening
  let h ← angle
  let w ← component 1 1
  let b ← component 1 1
  finish .hwb .own false h w b

def lightness (most : Float) : Reader (Option Float) := do
  return (← component 1 (0.01 * most)).map (clamp 0 most)

def opposed (space : ColorSpace) (most factor : Float) : Reader Color := do
  opening
  let l ← lightness most
  let a ← component 1 factor
  let b ← component 1 factor
  finish space .own false l a b

def polar (space : ColorSpace) (most factor : Float) : Reader Color := do
  opening
  let l ← lightness most
  let c := (← component 1 factor).map atLeastZero
  let h ← angle
  finish space .own false l c h

def space? (name : String) : Option ColorSpace :=
  if name = "xyz" then some .xyzD65
  else [.srgb, .srgbLinear, .displayP3, .a98Rgb, .prophotoRgb, .rec2020, .xyzD50, .xyzD65].find?
    (·.name == name)

def general : Reader Color := do
  opening
  blanks
  match ← word with
  | none => throw .noSpaceName
  | some w =>
    match space? (folded w) with
    | none => throw .unknownSpace
    | some space =>
      let a ← component 1 0.01
      let b ← component 1 0.01
      let c ← component 1 0.01
      finish space .general false a b c

def byName (name : String) : Reader Color :=
  match namedBytes? name with
  | some bytes => return .ofBytes (.named name) bytes
  | none => throw .unknownName

def function (name : String) : Reader Color :=
  if name = "rgb" ∨ name = "rgba" then rgb
  else if name = "hsl" ∨ name = "hsla" then hsl
  else if name = "hwb" then hwb
  else if name = "lab" then opposed .lab 100 1.25
  else if name = "lch" then polar .lch 100 1.25
  else if name = "oklab" then opposed .oklab 1 0.004
  else if name = "oklch" then polar .oklch 1 0.004
  else if name = "color" then general
  else byName name

def hexBytes? : List Nat → Option (Nat × Nat × Nat × Nat)
  | [r, g, b] => some (17 * r, 17 * g, 17 * b, 255)
  | [r, g, b, a] => some (17 * r, 17 * g, 17 * b, 17 * a)
  | [r, r', g, g', b, b'] => some (16 * r + r', 16 * g + g', 16 * b + b', 255)
  | [r, r', g, g', b, b', a, a'] =>
    some (16 * r + r', 16 * g + g', 16 * b + b', 16 * a + a')
  | _ => none

def hex : Reader Color := do
  let cs ← get
  let digits := (cs.take 8).takeWhile fun c => (Text.hexValue? c).isSome
  match hexBytes? (digits.filterMap Text.hexValue?) with
  | some bytes =>
    set (cs.drop digits.length)
    return .ofBytes .own bytes
  | none => throw .wrongDigitCount

def color : Reader Color := do
  if ← charHere '#' then hex
  else
    match ← word with
    | some w => function (folded w)
    | none => throw .unknownForm

end Reader

/-- The colour that a text spells, blanks around it aside. -/
def read : Palette := fun text =>
  match Reader.color.run (Text.trim text.toList) with
  | .ok (c, rest) => if rest.isEmpty then .ok c else .error Fault.trailingText.message
  | .error f => .error f.message

end DiagramText.Color
