import DiagramText.Color
import DiagramText.Text.Blank

/-!
# Colour values

A style takes a solid colour or a gradient. Gradients are kept as written.
-/

set_option autoImplicit false

namespace DiagramText

structure ColorError where
  input : String
  reason : String
  deriving DecidableEq, Repr

def ColorError.message (e : ColorError) : String :=
  "invalid color `" ++ e.input ++ "`: " ++ e.reason

namespace Color

def parse (palette : Palette) (text : String) : Except ColorError Color :=
  match palette text with
  | .ok c => .ok c
  | .error reason => .error ⟨text, reason⟩

def fallback : Color := ofBytes (.named "black") (0, 0, 0, 255)

end Color

inductive ColorValue where
  | solid (color : Color)
  | gradient (text : String)

namespace ColorValue

def isGradient (cs : List Char) : Bool :=
  let word := cs.map Char.toLower
  ("linear-gradient(".toList.isPrefixOf word || "radial-gradient(".toList.isPrefixOf word) &&
    word.getLast? == some ')'

def parse (palette : Palette) (text : String) : Except ColorError ColorValue :=
  let trimmed := Text.trim text.toList
  if isGradient trimmed then .ok (.gradient (.ofList trimmed))
  else (Color.parse palette (.ofList trimmed)).map .solid

def same : ColorValue → ColorValue → Bool
  | solid a, solid b => a == b
  | gradient a, gradient b => a == b
  | _, _ => false

instance : BEq ColorValue := ⟨same⟩

/-- What a table of colour values files a value under: its form and its printed text. -/
def key (print : Color → String) : ColorValue → Bool × String
  | solid c => (true, print c)
  | gradient text => (false, text)

end ColorValue

end DiagramText
