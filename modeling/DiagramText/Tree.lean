import DiagramText.Token

/-!
# Syntax trees

A tree holds every token of its document, blanks and comments included, so
it spells the document out again. A node keeps the offset at which it was
opened; it ends where its last child ends, and a node without children has
no width.
-/

set_option autoImplicit false

namespace DiagramText

inductive NodeKind where
  | document
  | shapeDefinition
  | subShapeDefinition
  | inlineShapeDefinition
  | shapeConnection
  | shapeId
  | labelDefinition
  | blockDefinition
  | property
  | propertyKey
  | attributeValue
  | array
  | error
  deriving DecidableEq, Repr

namespace NodeKind

def name : NodeKind → String
  | document => "Document"
  | shapeDefinition => "ShapeDefinition"
  | subShapeDefinition => "SubShapeDefinition"
  | inlineShapeDefinition => "InlineShapeDefinition"
  | shapeConnection => "ShapeConnection"
  | shapeId => "ShapeId"
  | labelDefinition => "LabelDefinition"
  | blockDefinition => "BlockDefinition"
  | property => "Property"
  | propertyKey => "PropertyKey"
  | attributeValue => "AttributeValue"
  | array => "Array"
  | error => "Error"

def isStatement : NodeKind → Bool
  | shapeDefinition | shapeConnection | property | subShapeDefinition | error => true
  | _ => false

end NodeKind

inductive Tree where
  | token (t : Token)
  | node (kind : NodeKind) (start : Nat) (children : List Tree)
  deriving Repr

namespace Tree

def start : Tree → Nat
  | token t => t.start
  | node _ s _ => s

mutual

def stop : Tree → Nat
  | token t => t.stop
  | node _ s cs => stopAll s cs

/-- Where a row of trees ends; an empty row ends where it starts. -/
def stopAll (s : Nat) : List Tree → Nat
  | [] => s
  | c :: cs => stopAll c.stop cs

end

def span (t : Tree) : Span := ⟨t.start, t.stop⟩

mutual

def tokens : Tree → List Token
  | token t => [t]
  | node _ _ cs => tokensAll cs

def tokensAll : List Tree → List Token
  | [] => []
  | c :: cs => c.tokens ++ tokensAll cs

end

mutual

/-- The node and every node below it, parents first. -/
def nodes : Tree → List Tree
  | token _ => []
  | node k s cs => node k s cs :: nodesAll cs

def nodesAll : List Tree → List Tree
  | [] => []
  | c :: cs => c.nodes ++ nodesAll cs

end

@[simp]
theorem stopAll_append (s : Nat) (xs ys : List Tree) :
    stopAll s (xs ++ ys) = stopAll (stopAll s xs) ys := by
  induction xs generalizing s with
  | nil => rfl
  | cons x xs ih => exact ih x.stop

@[simp]
theorem tokensAll_append (xs ys : List Tree) :
    tokensAll (xs ++ ys) = tokensAll xs ++ tokensAll ys := by
  induction xs with
  | nil => rfl
  | cons x xs ih => simp [tokensAll, ih]

@[simp]
theorem tokensAll_map_token (ts : List Token) : tokensAll (ts.map token) = ts := by
  induction ts with
  | nil => rfl
  | cons t ts ih => simp [tokensAll, tokens, ih]

@[simp]
theorem nodesAll_append (xs ys : List Tree) :
    nodesAll (xs ++ ys) = nodesAll xs ++ nodesAll ys := by
  induction xs with
  | nil => rfl
  | cons x xs ih => simp [nodesAll, ih]

@[simp]
theorem nodesAll_map_token (ts : List Token) : nodesAll (ts.map token) = [] := by
  induction ts with
  | nil => rfl
  | cons t ts ih => simp [nodesAll, nodes, ih]

theorem forall_nodes_node {P : Tree → Prop} {k : NodeKind} {s : Nat} {xs : List Tree} :
    (∀ n ∈ nodesAll [node k s xs], P n) ↔ P (node k s xs) ∧ ∀ n ∈ nodesAll xs, P n := by
  simp [nodesAll, nodes]

theorem forall_nodes_append {P : Tree → Prop} {xs ys : List Tree} :
    (∀ n ∈ nodesAll (xs ++ ys), P n) ↔
      (∀ n ∈ nodesAll xs, P n) ∧ ∀ n ∈ nodesAll ys, P n := by
  simp [or_imp, forall_and]

def kind? : Tree → Option NodeKind
  | token _ => none
  | node k _ _ => some k

theorem node_of_kind {t : Tree} {k : NodeKind} (h : t.kind? = some k) :
    ∃ s cs, t = node k s cs := by
  cases t with
  | token => simp [kind?] at h
  | node k' s cs =>
    obtain rfl : k' = k := Option.some.inj h
    exact ⟨s, cs, rfl⟩

theorem kind_of_any {t : Tree} {k : NodeKind} (h : t.kind?.any (· == k) = true) :
    t.kind? = some k := by
  obtain ⟨k', hk, heq⟩ := (Option.any_eq_true _ _).mp h
  rw [hk, eq_of_beq heq]

def token? : Tree → Option Token
  | token t => some t
  | node _ _ _ => none

def elements : Tree → List Tree
  | token _ => []
  | node _ _ cs => cs

def isNode (t : Tree) : Bool := t.kind?.isSome

def isKind (k : NodeKind) (t : Tree) : Bool := t.kind? == some k

def children (t : Tree) : List Tree := t.elements.filter isNode

def childrenOf (k : NodeKind) (t : Tree) : List Tree := t.elements.filter (isKind k)

def child? (k : NodeKind) (t : Tree) : Option Tree := t.elements.find? (isKind k)

def ownTokens (t : Tree) : List Token := t.elements.filterMap token?

def hasToken (k : TokenKind) (t : Tree) : Bool := t.ownTokens.any (·.kind == k)

def chars (t : Tree) : List Char := t.tokens.flatMap (·.text)

def text (t : Tree) : String := String.ofList t.chars

def firstToken? (t : Tree) : Option Token := t.tokens.head?

def lastToken? (t : Tree) : Option Token := t.tokens.getLast?

/-- Tokens below a tree other than blanks and comments. -/
def significant (t : Tree) : List Token := t.tokens.filter (!·.isTrivia)

/-- `Kind@start..stop` for a node, and the token's own form for a token. -/
def reference : Tree → String
  | token t => t.display
  | node k s cs => k.name ++ "@" ++ (node k s cs).span.display

end Tree

end DiagramText
