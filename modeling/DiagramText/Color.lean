import DiagramText.Decimal.Shortest

/-!
# Colours

A colour keeps the space in which it was written, its three components and
alpha, and how it was written: by a name, by the notation of its space, or by
the general notation that spells the space out. A component can be missing.
Two colours are equal when all of this agrees, numbers compared as numbers.
-/

set_option autoImplicit false

namespace DiagramText

inductive ColorSpace where
  | srgb
  | srgbLinear
  | displayP3
  | a98Rgb
  | prophotoRgb
  | rec2020
  | xyzD50
  | xyzD65
  | lab
  | lch
  | oklab
  | oklch
  | hsl
  | hwb
  deriving DecidableEq, Repr

def ColorSpace.name : ColorSpace → String
  | srgb => "srgb"
  | srgbLinear => "srgb-linear"
  | displayP3 => "display-p3"
  | a98Rgb => "a98-rgb"
  | prophotoRgb => "prophoto-rgb"
  | rec2020 => "rec2020"
  | xyzD50 => "xyz-d50"
  | xyzD65 => "xyz-d65"
  | lab => "lab"
  | lch => "lch"
  | oklab => "oklab"
  | oklch => "oklch"
  | hsl => "hsl"
  | hwb => "hwb"

namespace Color

inductive Notation where
  | named (name : String)
  | own
  | general
  deriving DecidableEq, Repr

structure Component where
  value : Float32
  missing : Bool := false

def Component.same (a b : Component) : Bool := a.missing == b.missing && a.value == b.value

def Component.scaled (factor : Float32) (c : Component) : Component :=
  ⟨c.value * factor, c.missing⟩

/-- The number, or `none` for a missing one. -/
def Component.text (c : Component) : String :=
  if c.missing then "none" else Shortest.display c.value

end Color

structure Color where
  space : ColorSpace
  written : Color.Notation
  first : Color.Component
  second : Color.Component
  third : Color.Component
  alpha : Color.Component

namespace Color

def same (a b : Color) : Bool :=
  decide (a.space = b.space) && decide (a.written = b.written) && a.first.same b.first &&
    a.second.same b.second && a.third.same b.third && a.alpha.same b.alpha

instance : BEq Color := ⟨same⟩

def byteComponent (n : Nat) : Component := ⟨Float32.ofNat n * (1 / 255), false⟩

def ofBytes (written : Notation) (bytes : Nat × Nat × Nat × Nat) : Color :=
  ⟨.srgb, written, byteComponent bytes.1, byteComponent bytes.2.1, byteComponent bytes.2.2.1,
    byteComponent bytes.2.2.2⟩

end Color

/-- Reads a colour from a text, or says why there is none. -/
abbrev Palette := String → Except String Color

end DiagramText
