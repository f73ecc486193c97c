import DiagramText.Tree.Connection
import DiagramText.Tree.Statement

/-!
# Mentions

Reading a document from top to bottom, each statement mentions shapes, gives
them labels and forms, and draws edges between them. A path inside the body
of a shape is relative to that shape. Blocks of connections and properties
mention nothing.
-/

set_option autoImplicit false

namespace DiagramText

/-- An edge between two named shapes, with the label and the span of its connection. -/
structure OutlineEdge where
  source : Id
  connector : Connector
  target : Id
  label : Option String
  span : Span
  deriving DecidableEq, Repr

inductive Mention where
  | path (scope : Option Id) (segments : List String) (span : Span)
  | label (shape : Id) (text : String)
  | form (shape : Id) (name : String)
  | edge (edge : OutlineEdge)
  deriving DecidableEq, Repr

namespace Mention

def enter (scope : Option Id) (segment : String) : Id :=
  match scope with
  | some parent => parent.nest ⟨segment⟩
  | none => ⟨segment⟩

def along (scope : Option Id) : List String → List Id
  | [] => []
  | s :: rest => enter scope s :: along (some (enter scope s)) rest

def resolve (scope : Option Id) : List String → Option Id
  | [] => scope
  | s :: rest => resolve (some (enter scope s)) rest

end Mention

namespace Tree

open Mention (resolve)

def endpointId? (scope : Option Id) : Endpoint → Option Id
  | .shape p => resolve scope p.segments
  | _ => none

def namedEdges (scope : Option Id) (t : Tree) : List OutlineEdge :=
  (t.connectors.zip (adjacent (t.endpoints.map (endpointId? scope)))).filterMap fun e =>
    match e.2 with
    | (some source, some target) =>
      some ⟨source, e.1, target, t.label?.map (·.cooked), t.span⟩
    | _ => none

def assigned (shape : Id) (keywordPath : List String) (value : String) : List Mention :=
  match keywordPath with
  | [word] =>
    if Text.sameFolded word "label" then [.label shape value]
    else if Text.sameFolded word "shape" then [.form shape value]
    else []
  | _ => []

def propertyMentions (scope : Option Id) (t : Tree) : List Mention :=
  match t.key? with
  | none => []
  | some key =>
    (if key.targetPath = [] then [] else [.path scope key.targetPath key.span]) ++
      match resolve scope key.targetPath, t.value? with
      | some shape, some value => assigned shape key.keywordPath value.cooked
      | _, _ => []

def headMentions (scope : Option Id) (path : Tree) (label? : Option Tree) : List Mention :=
  .path scope path.segments path.span ::
    match resolve scope path.segments, label? with
    | some shape, some label => [.label shape label.cooked]
    | _, _ => []

def isEndpointBlock (k : NodeKind) : Bool := k == .shapeId || k == .inlineShapeDefinition

mutual

/-- The mentions of a tree in a scope, in document order; the edges of a connection come after
what its inline blocks mention. -/
def mentions (scope : Option Id) : Tree → List Mention
  | token _ => []
  | node k s cs =>
    match k with
    | .document | .subShapeDefinition | .inlineShapeDefinition =>
      mentionsOf NodeKind.isStatement scope cs
    | .shapeDefinition =>
      match (node k s cs).shapePath? with
      | none => []
      | some path =>
        headMentions scope path (node k s cs).label? ++
          mentionsOf (· == .subShapeDefinition) (resolve scope path.segments) cs
    | .shapeConnection =>
      mentionsOf isEndpointBlock scope cs ++ ((node k s cs).namedEdges scope).map .edge
    | .shapeId => [.path scope (node k s cs).segments (node k s cs).span]
    | .property => (node k s cs).propertyMentions scope
    | _ => []

def mentionsOf (counts : NodeKind → Bool) (scope : Option Id) : List Tree → List Mention
  | [] => []
  | c :: cs => (if c.kind?.any counts then mentions scope c else []) ++ mentionsOf counts scope cs

end

end Tree

end DiagramText
