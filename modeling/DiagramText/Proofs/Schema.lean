import DiagramText.Parse
import DiagramText.Proofs.Layout
import DiagramText.Proofs.Nesting

/-!
# The schema of trees

Every node of a parsed text has the children that its production allows, so
the parts of a statement can be taken by kind without a check. The schema is
proved for derivations, one case for each, and holds of every text because
the grammar follows derivations.
-/

set_option autoImplicit false

namespace DiagramText.Schema
open Production DiagramText.Derivation Layout Nesting DiagramText.Tree

def Lawful (n : Tree) : Prop := ∃ k, n.kind? = some k ∧ Conforms k n.elements

theorem Lawful.conforms {n : Tree} {k : NodeKind} (h : Lawful n) (hk : n.kind? = some k) :
    Conforms k n.elements := by
  obtain ⟨k', hk', hc⟩ := h
  obtain rfl : k' = k := Option.some.inj (hk'.symm.trans hk)
  exact hc

/-- An opening brace comes first, and a closing brace only last. -/
def Braced (xs : List Tree) : Prop :=
  (∃ t, xs.head? = some (.token t) ∧ t.kind = .leftBrace) ∧
    ∀ before u after, xs = before ++ .token u :: after → u.kind = .rightBrace → after = []

theorem lawful_node {kind : NodeKind} {s : Nat} {xs : List Tree} (hk : Conforms kind xs)
    (h : ∀ n ∈ nodesAll xs, Lawful n) : ∀ n ∈ nodesAll [.node kind s xs], Lawful n :=
  forall_nodes_node.mpr ⟨⟨kind, rfl, hk⟩, h⟩

theorem lawful_append {xs ys : List Tree} (hx : ∀ n ∈ nodesAll xs, Lawful n)
    (hy : ∀ n ∈ nodesAll ys, Lawful n) : ∀ n ∈ nodesAll (xs ++ ys), Lawful n :=
  forall_nodes_append.mpr ⟨hx, hy⟩

theorem lawful_tokens (us : List Token) : ∀ n ∈ nodesAll (us.map .token), Lawful n := by
  simp

theorem lawful_enclosed {kind : NodeKind} {s : Nat} {t : Token} {xs close : List Tree}
    (hk : Conforms kind (.token t :: (xs ++ close))) (h : ∀ n ∈ nodesAll xs, Lawful n)
    (hc : nodesAll close = []) :
    ∀ n ∈ nodesAll [.node kind s (.token t :: (xs ++ close))], Lawful n := by
  apply lawful_node hk
  show ∀ n ∈ nodesAll (xs ++ close), Lawful n
  exact lawful_append h (by simp [hc])

theorem leaf_conforms {kind : NodeKind} {us : List Token} (h : Leaf kind us) :
    Conforms kind (us.map .token) := by
  rcases h with ⟨rfl | rfl | rfl, -⟩ | ⟨rfl, -⟩
  · exact nodeless_tokens us
  · exact nodeless_tokens us
  · exact nodeless_tokens us
  · exact .inl (nodeless_tokens us)

theorem derives_lawful {size : Nat} {ts us : List Token} {xs : List Tree} {ds : List Diagnostic}
    (h : Derives size ts xs ds us) : ∀ n ∈ nodesAll xs, Lawful n := by
  induction h with
  | nil | token => simp [nodesAll, nodes]
  | append _ _ ih ih' => exact lawful_append ih ih'
  | leaf _ t us ts tokens => exact lawful_node (leaf_conforms tokens) (lawful_tokens _)
  | silent t us ts | rejected t us ts =>
    exact lawful_node (show Conforms .error _ from nodeless_tokens _) (lawful_tokens _)
  | missing ts =>
    exact lawful_node (show Conforms .error _ from nodeless_tokens []) (by simp [nodesAll])
  | deepValue t us ts =>
    refine lawful_node (.inr ⟨_, rfl, .inr rfl⟩) ?_
    exact lawful_node (show Conforms .error _ from nodeless_tokens _) (lawful_tokens _)
  | arrayValue _ kind _ ih => exact lawful_node (.inr ⟨_, rfl, .inl kind⟩) ih
  | @closedArray t u ts us xs ds bracket _ elements close ih =>
    refine lawful_enclosed ?_ ih rfl
    exact ⟨t, xs, [.token u], rfl, bracket, elements, .inr ⟨u, rfl, close⟩⟩
  | @openArray t ts us xs ds bracket _ elements ih =>
    have hk : Conforms .array (.token t :: (xs ++ [])) :=
      ⟨t, xs, [], rfl, bracket, elements, .inl rfl⟩
    simpa using lawful_enclosed hk ih rfl
  | @closedBlock kind scope t u ts us xs ds body brace _ items close ih =>
    refine lawful_enclosed (conforms_braced kind scope _ body ?_) ih rfl
    exact ⟨t, xs, [.token u], rfl, brace, items, .inr ⟨u, rfl, close⟩⟩
  | @openBlock kind scope t ts xs ds body brace _ items ih =>
    have hk : Conforms kind (.token t :: (xs ++ [])) :=
      conforms_braced kind scope _ body ⟨t, xs, [], rfl, brace, items, .inl rfl⟩
    simpa using lawful_enclosed hk ih rfl
  | definition _ _ conforms ih => exact lawful_node conforms ih
  | @connection ts us vs ws kind source links rest ds es fs _ _ _ sourceKind endpoint linked
      annotated _ _ ih ih' ih'' =>
    refine lawful_node ?_ (lawful_append ih (lawful_append ih' ih''))
    refine ⟨kind, signature links, signature rest, ?_, endpoint, linked, annotated⟩
    obtain ⟨s, cs, rfl⟩ := node_of_kind sourceKind
    rw [signature_node, signature_append]

theorem outermost_lawful {size : Nat} {ts us : List Token} {xs : List Tree}
    {ds : List Diagnostic} (h : Outermost size ts xs ds us) : ∀ n ∈ nodesAll xs, Lawful n := by
  induction h with
  | piece derives => exact derives_lawful derives
  | append _ _ ih ih' => exact lawful_append ih ih'
  | stray t ts =>
    exact lawful_node (show Conforms .error _ from nodeless_tokens [t]) (lawful_tokens [t])
  | anonymous _ block => exact derives_lawful block

theorem hasToken_iff (k : TokenKind) (n : Tree) :
    n.hasToken k = true ↔ ∃ u, Tree.token u ∈ n.elements ∧ u.kind = k := by
  simp only [hasToken, ownTokens, List.any_eq_true, List.mem_filterMap, beq_iff_eq]
  constructor
  · rintro ⟨u, ⟨x, hx, hu⟩, hk⟩
    cases x with
    | token t =>
      obtain rfl : t = u := by simpa [token?] using hu
      exact ⟨t, hx, hk⟩
    | node => simp [token?] at hu
  · rintro ⟨u, hu, hk⟩
    exact ⟨u, ⟨_, hu, rfl⟩, hk⟩

theorem child_found {k : NodeKind} {xs : List Tree} {w : List Symbol}
    (h : signature xs = .node k :: w) : (xs.find? (isKind k)).isSome = true := by
  rw [List.find?_isSome]
  have hmem : Symbol.node k ∈ signature xs := by simp [h]
  obtain ⟨x, hx, hs⟩ := List.mem_filterMap.mp hmem
  refine ⟨x, hx, ?_⟩
  cases x with
  | token t =>
    simp only [symbol?] at hs
    split at hs <;> simp at hs
  | node kind s cs => simpa [symbol?, isKind, kind?] using hs

theorem items_plain {scope : Grammar.Scope} {xs : List Tree} (h : Items scope (signature xs))
    {u : Token} (hu : Tree.token u ∈ xs) : u.kind ≠ .rightBrace := by
  intro hk
  have ht : u.isTrivia = false := by simp [Token.isTrivia, hk, TokenKind.isTrivia]
  have ha := h _ (mem_signature u xs hu ht)
  simp [allowed, hk] at ha

theorem block_unclosed {kind : NodeKind} {scope : Grammar.Scope} {s : Nat} {t : Token}
    {xs : List Tree} (ht : t.kind = .leftBrace) (h : Items scope (signature xs)) :
    isClosedBlock (.node kind s (.token t :: xs)) = false := by
  rw [Bool.eq_false_iff]
  intro hclosed
  obtain ⟨u, hu, hk⟩ := (hasToken_iff _ _).mp hclosed
  rcases List.mem_cons.mp hu with hu | hu
  · obtain rfl : u = t := by simpa using hu
    simp [ht] at hk
  · exact items_plain h hu hk

theorem enclosed_braced {scope : Grammar.Scope} {xs : List Tree}
    (h : Enclosed .leftBrace .rightBrace (Items scope) xs) : Braced xs := by
  obtain ⟨t, body, close, rfl, ht, hitems, hclose⟩ := h
  refine ⟨⟨t, rfl, ht⟩, ?_⟩
  intro before u after heq hu
  cases before with
  | nil =>
    obtain ⟨rfl, -⟩ : t = u ∧ _ := by simpa using heq
    simp [ht] at hu
  | cons b before =>
    obtain ⟨-, heq⟩ : _ ∧ body ++ close = before ++ .token u :: after := by simpa using heq
    rcases List.append_eq_append_iff.mp heq with ⟨mid, rfl, hmid⟩ | ⟨mid, rfl, hmid⟩
    · rcases hclose with rfl | ⟨v, rfl, -⟩
      · simp at hmid
      · cases mid with
        | nil =>
          obtain ⟨-, hafter⟩ : u = v ∧ after = [] := by simpa using hmid.symm
          exact hafter
        | cons m mid => simp at hmid
    · cases mid with
      | nil =>
        rcases hclose with rfl | ⟨v, rfl, -⟩
        · simp at hmid
        · obtain ⟨-, hafter⟩ : u = v ∧ after = [] := by simpa using hmid
          exact hafter
      | cons m mid =>
        obtain ⟨rfl, -⟩ : m = .token u ∧ _ := by simpa [eq_comm] using hmid
        exact absurd hu (items_plain hitems (by simp))

theorem lawful_braced {n : Tree} {k : NodeKind} {scope : Grammar.Scope} (h : Lawful n)
    (hk : n.kind? = some k) (hs : bodyScope? k = some scope) : Braced n.elements := by
  have hc := h.conforms hk
  cases k with
  | subShapeDefinition => exact enclosed_braced hc
  | inlineShapeDefinition => exact enclosed_braced hc
  | blockDefinition => exact enclosed_braced hc
  | _ => simp [bodyScope?] at hs

theorem lawful_shapePath {n : Tree} (h : Lawful n) (hk : n.kind? = some .shapeDefinition) :
    n.shapePath?.isSome = true := by
  obtain ⟨w, hw, -⟩ := h.conforms hk
  exact child_found hw

theorem lawful_key {n : Tree} (h : Lawful n) (hk : n.kind? = some .property) :
    n.key?.isSome = true := by
  obtain ⟨w, hw, -⟩ := h.conforms hk
  exact child_found hw

/-- Every node of every text has the children of its production. Blocks open with their brace
and end with the closing one, and shapes and properties have the path that they start with. -/
theorem parse_lawful (text : String) :
    ∀ n ∈ (parse text).tree.nodes,
      Lawful n ∧
        (∀ k scope, n.kind? = some k → bodyScope? k = some scope → Braced n.elements) ∧
        (n.kind? = some .shapeDefinition → n.shapePath?.isSome = true) ∧
        (n.kind? = some .property → n.key?.isSome = true) := by
  intro n hn
  have hl : Lawful n := by
    obtain ⟨-, hd, hitems⟩ := document_derives (tokenize text).1 text.utf8ByteSize
    rcases List.mem_cons.mp hn with rfl | hn
    · exact ⟨.document, rfl, hitems⟩
    · exact outermost_lawful hd n hn
  exact ⟨hl, fun k scope hk hs => lawful_braced hl hk hs, lawful_shapePath hl, lawful_key hl⟩

theorem shape_path_found :
    ((parse "a: {b}").tree.nodes.get ⟨1, by decide +kernel⟩).shapePath?.isSome = true :=
  (parse_lawful "a: {b}" _ (List.get_mem _ _)).2.2.1 (by decide +kernel)

end DiagramText.Schema
