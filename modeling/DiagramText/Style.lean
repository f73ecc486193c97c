import DiagramText.Color.Value
import DiagramText.Text.Caseless

/-!
# Style attributes

The attributes of a style with the rule that each puts on its value. A value
is checked without the blanks around it.
-/

set_option autoImplicit false

namespace DiagramText

inductive StyleAttribute where
  | opacity
  | fill
  | fillPattern
  | stroke
  | strokeWidth
  | strokeDash
  | borderRadius
  | font
  | fontSize
  | fontColor
  | bold
  | italic
  | underline
  | textTransform
  | shadow
  | multiple
  | doubleBorder
  | threeD
  | animated
  | filled
  deriving DecidableEq, Repr

inductive ValueRule where
  | floatRange (low high : Float32)
  | intRange (low high : Int)
  | boolean
  | color
  | font
  | oneOf (words : List String)

inductive StyleFault where
  | floatRange (low high : Float32)
  | intRange (low high : Int)
  | boolean
  | color (error : ColorError)
  | font (fonts : List String)
  | oneOf (words : List String)

namespace StyleFault

def reason : StyleFault → String
  | floatRange low high =>
    "a float between " ++ Shortest.display low ++ " and " ++ Shortest.display high
  | intRange low high => "an integer between " ++ toString low ++ " and " ++ toString high
  | boolean => "true or false"
  | color e => "a valid color: " ++ e.message
  | font fonts => "a valid font: (" ++ ", ".intercalate fonts ++ ")"
  | oneOf words => "one of (" ++ ", ".intercalate words ++ ")"

def message (keyword : String) (f : StyleFault) : String :=
  "expected " ++ keyword ++ " to be " ++ f.reason

end StyleFault

namespace ValueRule

/-- Fonts that are known by name. -/
def fonts : List String := ["mono"]

/-- The value, without the blanks around it, satisfies the rule. -/
def checkTrimmed (palette : Palette) (cs : List Char) : ValueRule → Except StyleFault Unit
  | floatRange low high =>
    match (Decimal.readNumeral? cs).map Rounding.toSingle with
    | some x => if low ≤ x ∧ x ≤ high then .ok () else .error (.floatRange low high)
    | none => .error (.floatRange low high)
  | intRange low high =>
    match Decimal.readInt64? cs with
    | some n => if low ≤ n ∧ n ≤ high then .ok () else .error (.intRange low high)
    | none => .error (.intRange low high)
  | boolean => if ["true", "false"].contains (.ofList cs) then .ok () else .error .boolean
  | color =>
    match ColorValue.parse palette (.ofList cs) with
    | .ok _ => .ok ()
    | .error e => .error (.color e)
  | font => if fonts.contains (.ofList cs) then .ok () else .error (.font fonts)
  | oneOf words => if words.contains (.ofList cs) then .ok () else .error (.oneOf words)

def check (palette : Palette) (rule : ValueRule) (value : String) : Except StyleFault Unit :=
  rule.checkTrimmed palette (Text.trim value.toList)

end ValueRule

namespace StyleAttribute

def all : List StyleAttribute :=
  [opacity, fill, fillPattern, stroke, strokeWidth, strokeDash, borderRadius, font, fontSize,
    fontColor, bold, italic, underline, textTransform, shadow, multiple, doubleBorder, threeD,
    animated, filled]

def keyword : StyleAttribute → String
  | opacity => "opacity"
  | fill => "fill"
  | fillPattern => "fill-pattern"
  | stroke => "stroke"
  | strokeWidth => "stroke-width"
  | strokeDash => "stroke-dash"
  | borderRadius => "border-radius"
  | font => "font"
  | fontSize => "font-size"
  | fontColor => "font-color"
  | bold => "bold"
  | italic => "italic"
  | underline => "underline"
  | textTransform => "text-transform"
  | shadow => "shadow"
  | multiple => "multiple"
  | doubleBorder => "double-border"
  | threeD => "3d"
  | animated => "animated"
  | filled => "filled"

def rule : StyleAttribute → ValueRule
  | opacity => .floatRange 0 1
  | fill | stroke | fontColor => .color
  | fillPattern => .oneOf ["dots", "lines", "grain"]
  | strokeWidth => .intRange 0 15
  | strokeDash => .intRange 0 10
  | borderRadius => .intRange 0 20
  | font => .font
  | fontSize => .intRange 8 100
  | textTransform => .oneOf ["uppercase", "lowercase", "title", "none"]
  | bold | italic | underline | shadow | multiple | doubleBorder | threeD | animated | filled =>
    .boolean

def ofKeyword? (word : String) : Option StyleAttribute :=
  all.find? fun a => Text.sameFolded a.keyword word

def check (palette : Palette) (a : StyleAttribute) (value : String) : Except StyleFault Unit :=
  a.rule.check palette value

end StyleAttribute

end DiagramText
