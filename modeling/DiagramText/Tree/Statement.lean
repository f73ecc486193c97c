import DiagramText.Tree.Path
import DiagramText.Tree.Value

/-!
# Statements

The statements of a document or a block, and the parts of each kind of
statement by name.
-/

set_option autoImplicit false

namespace DiagramText

inductive Statement where
  | shape (definition : Tree)
  | connection (chain : Tree)
  | property (assignment : Tree)
  | block (body : Tree)
  | error (skipped : Tree)

namespace Statement

def ofTree? (t : Tree) : Option Statement :=
  match t.kind? with
  | some .shapeDefinition => some (shape t)
  | some .shapeConnection => some (connection t)
  | some .property => some (property t)
  | some .subShapeDefinition => some (block t)
  | some .error => some (error t)
  | _ => none

def tree : Statement → Tree
  | shape t | connection t | property t | block t | error t => t

def name : Statement → String
  | shape _ => "Shape"
  | connection _ => "Connection"
  | property _ => "Property"
  | block _ => "SubShape"
  | error _ => "Error"

end Statement

namespace Tree

/-- Direct children that are statements, in document order. -/
def statements (t : Tree) : List Statement := t.elements.filterMap Statement.ofTree?

def shapePath? (t : Tree) : Option Tree := t.child? .shapeId

def label? (t : Tree) : Option Tree := t.child? .labelDefinition

def body? (t : Tree) : Option Tree := t.child? .subShapeDefinition

def key? (t : Tree) : Option Tree := t.child? .propertyKey

def value? (t : Tree) : Option Tree := t.child? .attributeValue

def block? (t : Tree) : Option Tree := t.child? .blockDefinition

/-- A property with neither value nor block, which reads as switched on. -/
def isFlag (t : Tree) : Bool := t.value?.isNone && t.block?.isNone

end Tree

end DiagramText
