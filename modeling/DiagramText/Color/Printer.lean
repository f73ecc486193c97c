import DiagramText.Color

/-!
# Printing colours

A named colour is printed as its name. Colours of the red, green and blue
family in their own notation are printed with byte values and commas; the
others by the notation that they were written in. Alpha is printed only when
it is below one.
-/

set_option autoImplicit false

namespace DiagramText.Color

def clampUnit (low high x : Float32) : Float32 :=
  if x < low then low else if high < x then high else x

/-- Red, green or blue of a hue, a saturation and a lightness in percent, by the offset of the
channel on the colour wheel. -/
def hslChannel (hue saturation lightness offset : Float32) : Float32 :=
  let light := lightness * 0.01
  let dark := 1 - light
  let reach := saturation * 0.01 * (if light < dark then light else dark)
  let x := offset + hue * (1 / 30)
  let k := x - 12 * (x * (1 / 12)).floor
  let up := k - 3
  let down := 9 - k
  light - reach * clampUnit (-1) 1 (if up < down then up else down)

def hslToRgb (h s l : Float32) : Float32 × Float32 × Float32 :=
  (hslChannel h s l 0, hslChannel h s l 8, hslChannel h s l 4)

def hwbToRgb (h w b : Float32) : Float32 × Float32 × Float32 :=
  let white := w * 0.01
  let black := b * 0.01
  if 1 ≤ white + black then
    let gray := white / (white + black)
    (gray, gray, gray)
  else
    let mix (x : Float32) : Float32 := white + x * (1 - white - black)
    let pure := hslToRgb h 100 50
    (mix pure.1, mix pure.2.1, mix pure.2.2)

def withRgb (c : Color) (rgb : Float32 × Float32 × Float32) : Color :=
  ⟨.srgb, .own, ⟨rgb.1, false⟩, ⟨rgb.2.1, false⟩, ⟨rgb.2.2, false⟩, c.alpha⟩

def toRgb (c : Color) : Color :=
  match c.space with
  | .hsl => c.withRgb (hslToRgb c.first.value c.second.value c.third.value)
  | .hwb => c.withRgb (hwbToRgb c.first.value c.second.value c.third.value)
  | _ => c

def translucent (c : Color) : Bool := c.alpha.value < 1

def displayBytes (c : Color) : String :=
  (if c.translucent then "rgba(" else "rgb(") ++ (c.first.scaled 255).text ++ ", " ++
    (c.second.scaled 255).text ++ ", " ++ (c.third.scaled 255).text ++
    (if c.translucent then ", " ++ c.alpha.text else "") ++ ")"

def displayNumbers (opening : String) (c : Color) : String :=
  opening ++ c.first.text ++ " " ++ c.second.text ++ " " ++ c.third.text ++
    (if c.translucent then " / " ++ c.alpha.text else "") ++ ")"

def display (c : Color) : String :=
  match c.written with
  | .named name => name
  | .own =>
    match c.space with
    | .srgb | .hsl | .hwb => displayBytes c.toRgb
    | s => displayNumbers (s.name ++ "(") c
  | .general => displayNumbers ("color(" ++ c.space.name ++ " ") c

end DiagramText.Color
