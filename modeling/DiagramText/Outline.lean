import DiagramText.Outline.Mention

/-!
# Outlines

The outline of a document lists its shapes in the order in which they are
first mentioned, each with the last label and the last form that it was
given, and its edges.
-/

set_option autoImplicit false

namespace DiagramText

structure OutlineShape where
  id : Id
  label : Option String := none
  form : Option String := none
  span : Span := {}
  deriving DecidableEq, Repr

structure Outline where
  shapes : List OutlineShape := []
  edges : List OutlineEdge := []
  deriving DecidableEq, Repr

namespace Outline

def shape? (o : Outline) (id : Id) : Option OutlineShape := o.shapes.find? (·.id == id)

def declare (span : Span) (o : Outline) (id : Id) : Outline :=
  if (o.shape? id).isSome then o
  else { o with shapes := o.shapes ++ [{ id, span }] }

/-- Changes the entry of a shape, which is entered first if it is not there. -/
def update (id : Id) (f : OutlineShape → OutlineShape) (o : Outline) : Outline :=
  let o := o.declare {} id
  { o with shapes := o.shapes.map fun e => if e.id = id then f e else e }

def add (o : Outline) : Mention → Outline
  | .path scope segments span => (Mention.along scope segments).foldl (declare span) o
  | .label id text => o.update id fun e => { e with label := some text }
  | .form id name => o.update id fun e => { e with form := some name }
  | .edge e => { o with edges := o.edges ++ [e] }

def ofMentions (ms : List Mention) : Outline := ms.foldl add {}

def ofTree (t : Tree) : Outline := ofMentions (t.mentions none)

def isEmpty (o : Outline) : Bool := o.shapes.isEmpty && o.edges.isEmpty

def displayLabel : Option String → String
  | some text => ": " ++ text
  | none => ""

def displayShape (e : OutlineShape) : String :=
  "  " ++ e.id.text ++ displayLabel e.label ++
    (match e.form with
      | some name => " [" ++ name ++ "]"
      | none => "") ++ "\n"

def displayEdge (e : OutlineEdge) : String :=
  "  " ++ e.source.text ++ " " ++ e.connector.text ++ " " ++ e.target.text ++
    displayLabel e.label ++ "\n"

/-- The outline as text, one line for each shape and each edge. -/
def display (o : Outline) : String :=
  "shapes:\n" ++ String.join (o.shapes.map displayShape) ++
    "edges:\n" ++ String.join (o.edges.map displayEdge)

end Outline

end DiagramText
