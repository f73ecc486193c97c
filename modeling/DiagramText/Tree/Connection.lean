import DiagramText.Tree

/-!
# Connections

The endpoints of a connection are its direct children that are paths, inline
blocks or error nodes; its connectors are its direct connector tokens. The
edges pair each connector with the endpoints before and after it.
-/

set_option autoImplicit false

namespace DiagramText

inductive Endpoint where
  | shape (path : Tree)
  | inline (block : Tree)
  | missing (error : Tree)

namespace Endpoint

def ofTree? (t : Tree) : Option Endpoint :=
  match t.kind? with
  | some .shapeId => some (shape t)
  | some .inlineShapeDefinition => some (inline t)
  | some .error => some (missing t)
  | _ => none

def tree : Endpoint → Tree
  | shape t | inline t | missing t => t

def shape? : Endpoint → Option Tree
  | shape t => some t
  | _ => none

def name : Endpoint → String
  | shape _ => "Shape"
  | inline _ => "Inline"
  | missing _ => "Missing"

end Endpoint

/-- One step of a chain of connectors. -/
structure Edge where
  source : Endpoint
  connector : Connector
  target : Endpoint

def adjacent {α : Type} : List α → List (α × α)
  | a :: b :: rest => (a, b) :: adjacent (b :: rest)
  | _ => []

namespace Tree

def endpoints (t : Tree) : List Endpoint := t.elements.filterMap Endpoint.ofTree?

def connectorTokens (t : Tree) : List Token := t.ownTokens.filter (·.kind.isConnector)

def connectors (t : Tree) : List Connector := t.ownTokens.filterMap (·.kind.connector?)

/-- One edge for each connector, in chain order. -/
def edges (t : Tree) : List Edge :=
  (t.connectors.zip (adjacent t.endpoints)).map fun e => ⟨e.2.1, e.1, e.2.2⟩

def source? (t : Tree) : Option Endpoint := t.endpoints[0]?

def target? (t : Tree) : Option Endpoint := t.endpoints[1]?

end Tree

end DiagramText
