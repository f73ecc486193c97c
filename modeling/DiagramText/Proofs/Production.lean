import DiagramText.Grammar.Document
import DiagramText.Tree.Connection
import DiagramText.Tree.Statement

/-!
# Productions

The direct children of a node, trivia left out, spell its signature. Each
kind of node has a production, which says what signatures it can have and
which tokens stand at its ends. Over-deep groups and missing endpoints appear
in a production as error nodes.
-/

set_option autoImplicit false

namespace DiagramText.Production
open Grammar

inductive Symbol where
  | node (kind : NodeKind)
  | token (kind : TokenKind)
  deriving DecidableEq, Repr

def symbol? : Tree → Option Symbol
  | .token t => if t.isTrivia then none else some (.token t.kind)
  | .node k _ _ => some (.node k)

def signature (xs : List Tree) : List Symbol := xs.filterMap symbol?

@[simp]
theorem signature_nil : signature [] = [] := rfl

@[simp]
theorem signature_append (xs ys : List Tree) :
    signature (xs ++ ys) = signature xs ++ signature ys := by
  simp [signature]

@[simp]
theorem signature_node (k : NodeKind) (s : Nat) (cs xs : List Tree) :
    signature (.node k s cs :: xs) = .node k :: signature xs := rfl

theorem mem_signature (t : Token) (xs : List Tree) (h : Tree.token t ∈ xs)
    (ht : t.isTrivia = false) : Symbol.token t.kind ∈ signature xs :=
  List.mem_filterMap.mpr ⟨_, h, by simp [symbol?, ht]⟩

theorem mem_signature_node (k : NodeKind) (x : Tree) (xs : List Tree) (h : x ∈ xs)
    (hk : x.kind? = some k) : Symbol.node k ∈ signature xs := by
  refine List.mem_filterMap.mpr ⟨x, h, ?_⟩
  obtain ⟨s, cs, rfl⟩ := Tree.node_of_kind hk
  rfl

def allowed (scope : Scope) : Symbol → Bool
  | .token k => k == .newline || k == .semicolon
  | .node k =>
    match scope with
    | .block => k == .property || k == .shapeConnection || k == .error
    | _ => k.isStatement

def Items (scope : Scope) (w : List Symbol) : Prop := ∀ s ∈ w, allowed scope s = true

def isElement : Symbol → Bool
  | .token k => k == .newline || k == .semicolon || k == .symbol
  | .node k => k == .attributeValue

def Elements (w : List Symbol) : Prop := ∀ s ∈ w, isElement s = true

/-- At most a colon, and a node only after it. -/
inductive Labelled (kind : NodeKind) : List Symbol → Prop where
  | bare : Labelled kind []
  | colon : Labelled kind [.token .colon]
  | full : Labelled kind [.token .colon, .node kind]

inductive Bodied (kind : NodeKind) : List Symbol → Prop where
  | none : Bodied kind []
  | body : Bodied kind [.node kind]
  | error : Bodied kind [.node .error]

def isEndpoint : NodeKind → Bool
  | .shapeId | .inlineShapeDefinition | .error => true
  | _ => false

/-- Connectors, each with the endpoint after it. -/
inductive Links : List Symbol → Prop where
  | nil : Links []
  | cons {k : TokenKind} {e : NodeKind} {w : List Symbol} (hk : k.isConnector = true)
      (he : isEndpoint e = true) (rest : Links w) : Links (.token k :: .node e :: w)

theorem items_append (scope : Scope) (u v : List Symbol) (hu : Items scope u)
    (hv : Items scope v) : Items scope (u ++ v) := by
  intro s hs
  exact (List.mem_append.mp hs).elim (hu s) (hv s)

theorem elements_append (u v : List Symbol) (hu : Elements u) (hv : Elements v) :
    Elements (u ++ v) := by
  intro s hs
  exact (List.mem_append.mp hs).elim (hu s) (hv s)

theorem links_append (u v : List Symbol) (hu : Links u) (hv : Links v) : Links (u ++ v) := by
  induction hu with
  | nil => exact hv
  | cons hk he _ ih => exact .cons hk he ih

def Nodeless (xs : List Tree) : Prop := ∀ x ∈ xs, x.isNode = false

def Enclosed (opening closing : TokenKind) (inside : List Symbol → Prop) (xs : List Tree) : Prop :=
  ∃ t body close, xs = .token t :: (body ++ close) ∧ t.kind = opening ∧ inside (signature body) ∧
    (close = [] ∨ ∃ u, close = [.token u] ∧ u.kind = closing)

/-- The scope of the statements in a braced node. -/
def bodyScope? : NodeKind → Option Scope
  | .subShapeDefinition | .inlineShapeDefinition => some .shape
  | .blockDefinition => some .block
  | _ => none

def Annotated (label body : NodeKind) (w : List Symbol) : Prop :=
  ∃ l b, w = l ++ b ∧ Labelled label l ∧ Bodied body b

def Conforms : NodeKind → List Tree → Prop
  | .document, xs => Items .document (signature xs)
  | .subShapeDefinition, xs | .inlineShapeDefinition, xs =>
    Enclosed .leftBrace .rightBrace (Items .shape) xs
  | .blockDefinition, xs => Enclosed .leftBrace .rightBrace (Items .block) xs
  | .shapeDefinition, xs => ∃ w, signature xs = .node .shapeId :: w ∧
    Annotated .labelDefinition .subShapeDefinition w
  | .property, xs => ∃ w, signature xs = .node .propertyKey :: w ∧
    Annotated .attributeValue .blockDefinition w
  | .shapeConnection, xs => ∃ e u w, signature xs = .node e :: (u ++ w) ∧ isEndpoint e = true ∧
    Links u ∧ Annotated .labelDefinition .blockDefinition w
  | .attributeValue, xs => Nodeless xs ∨ ∃ x, xs = [x] ∧ (x.isKind .array ∨ x.isKind .error)
  | .array, xs => Enclosed .leftBracket .rightBracket Elements xs
  | .shapeId, xs | .propertyKey, xs | .labelDefinition, xs | .error, xs => Nodeless xs

theorem nodeless_tokens (us : List Token) : Nodeless (us.map .token) := by
  intro x hx
  obtain ⟨t, -, rfl⟩ := List.mem_map.mp hx
  rfl

theorem conforms_braced (kind : NodeKind) (scope : Scope) (xs : List Tree)
    (hk : bodyScope? kind = some scope) (h : Enclosed .leftBrace .rightBrace (Items scope) xs) :
    Conforms kind xs := by
  cases kind <;> simp only [bodyScope?, reduceCtorEq] at hk <;> cases hk <;> exact h

end DiagramText.Production
