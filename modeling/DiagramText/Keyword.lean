import DiagramText.Text.Caseless

/-!
# Keywords

A path with a reserved word among its bare segments is a property and not a
shape. Words are matched without regard to ASCII case.
-/

set_option autoImplicit false

namespace DiagramText.Keyword

def reserved : List String :=
  ["label", "shape", "icon", "constraint", "tooltip", "link", "near", "width", "height",
    "direction", "top", "left", "grid-rows", "grid-columns", "grid-gap", "vertical-gap",
    "horizontal-gap", "class", "classes", "vars", "style", "source-arrowhead",
    "target-arrowhead", "layers", "scenarios", "steps"]

def shapeTypes : List String :=
  ["rectangle", "square", "page", "parallelogram", "document", "cylinder", "queue", "package",
    "step", "callout", "stored_data", "person", "diamond", "oval", "circle", "hexagon", "cloud",
    "text", "code", "class", "sql_table", "image", "sequence_diagram"]

/-- Shapes of the end of a connection. -/
def arrowheadShapes : List String :=
  ["triangle", "arrow", "diamond", "circle", "box", "cf-one", "cf-one-required", "cf-many",
    "cf-many-required", "cross"]

def isReserved (word : String) : Bool := Text.listed reserved word

def isShapeType (word : String) : Bool := Text.listed shapeTypes word

def isArrowheadShape (word : String) : Bool := Text.listed arrowheadShapes word

def isArrowhead (word : String) : Bool :=
  Text.listed ["source-arrowhead", "target-arrowhead"] word

end DiagramText.Keyword
