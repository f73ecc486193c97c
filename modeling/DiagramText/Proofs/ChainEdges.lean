import DiagramText.Proofs.ChainLengths

/-!
# The edges of a chain

A connection lists its endpoints and its connectors apart, and its edges pair
them by number. In what the grammar builds, endpoints and connectors take
turns from the first endpoint on, and nothing behind the last connector is one.
So each edge joins the endpoints on the two sides of its connector, left out
ends and a block that was refused included.
-/

set_option autoImplicit false

namespace DiagramText.ChainEdges
open Production Schema Endpoints Construction ChainLengths DiagramText.Tree

def endpointsIn (xs : List Tree) : List Endpoint := xs.filterMap Endpoint.ofTree?

def connectorsIn (xs : List Tree) : List Token :=
  (xs.filterMap token?).filter (·.kind.isConnector)

structure Joins (before : List Tree) (connector : Token) (after : List Tree) (e : Edge) : Prop where
  connector : connector.kind.connector? = some e.connector
  source : (endpointsIn before).getLast? = some e.source
  target : (endpointsIn after).head? = some e.target

/-- The edges are one for each connector, in their order. -/
structure FollowsConnectors (c : Tree) : Prop where
  count : c.edges.length = c.connectorTokens.length
  joins : ∀ before t after, c.elements = before ++ .token t :: after → t.kind.isConnector = true →
    ∃ e, c.edges[(connectorsIn before).length]? = some e ∧ Joins before t after e

theorem adjacent_zip {α : Type} (xs : List α) : adjacent xs = xs.zip xs.tail := by
  induction xs with
  | nil => rfl
  | cons x xs ih =>
    cases xs with
    | nil => rfl
    | cons y ys => rw [adjacent, ih]; rfl

theorem adjacent_length {α : Type} (xs : List α) : (adjacent xs).length = xs.length - 1 := by
  rw [adjacent_zip, List.length_zip, List.length_tail]
  omega

theorem adjacent_meet {α : Type} {xs ys : List α} {a b : α} {n : Nat} (hn : xs.length = n + 1)
    (ha : xs.getLast? = some a) (hb : ys.head? = some b) :
    (adjacent (xs ++ ys))[n]? = some (a, b) := by
  obtain ⟨init, rfl⟩ := List.getLast?_eq_some_iff.mp ha
  obtain ⟨rest, rfl⟩ := List.head?_eq_some_iff.mp hb
  obtain rfl : init.length = n := by simpa using hn
  rw [adjacent_zip, List.getElem?_zip_eq_some, List.getElem?_tail]
  simp

theorem connectors_paired (xs : List Tree) :
    ((xs.filterMap token?).filterMap (·.kind.connector?)).length = (connectorsIn xs).length := by
  rw [connectorsIn, ← List.countP_eq_length_filter, List.length_filterMap_eq_countP]
  rfl

theorem links_split {e : NodeKind} {k : TokenKind} {u w p q : List Symbol} (hu : Links u)
    (he : isEndpoint e = true) (hk : k.isConnector = true)
    (hw : ∀ k, Symbol.token k ∈ w → k.isConnector = false)
    (h : .node e :: (u ++ w) = p ++ .token k :: q) :
    p.countP isEndpointSymbol = p.countP isConnectorSymbol + 1 ∧
      ∃ e' r, q = .node e' :: r ∧ isEndpoint e' = true := by
  induction hu generalizing e p with
  | nil =>
    have hmem : Symbol.token k ∈ .node e :: ([] ++ w) := by rw [h]; simp
    have hplain := hw k (by simpa using hmem)
    simp [hk] at hplain
  | @cons k' e' u hk' he' rest ih =>
    cases p with
    | nil => simp at h
    | cons s p =>
      obtain ⟨rfl, hrest⟩ : .node e = s ∧ .token k' :: .node e' :: (u ++ w) = p ++ .token k :: q :=
        List.cons.inj h
      cases p with
      | nil =>
        obtain ⟨-, rfl⟩ : .token k' = Symbol.token k ∧ .node e' :: (u ++ w) = q :=
          List.cons.inj hrest
        exact ⟨by simp [isEndpointSymbol, isConnectorSymbol, he], e', u ++ w, rfl, he'⟩
      | cons s' p =>
        obtain ⟨rfl, hlinks⟩ : .token k' = s' ∧ .node e' :: (u ++ w) = p ++ .token k :: q :=
          List.cons.inj hrest
        obtain ⟨hcount, hnext⟩ := ih he' hlinks
        refine ⟨?_, hnext⟩
        simp [isEndpointSymbol, isConnectorSymbol, he, hk', hcount]

theorem signature_connector {t : Token} (ht : t.kind.isConnector = true) (xs : List Tree) :
    signature (.token t :: xs) = .token t.kind :: signature xs := by
  have hsolid : t.isTrivia = false := (Statements.connector_plain ht).2
  simp [signature, symbol?, hsolid]

theorem endpoint_first {e : NodeKind} {xs : List Tree} {w : List Symbol}
    (h : signature xs = .node e :: w) (he : isEndpoint e = true) :
    ∃ first, (endpointsIn xs).head? = some first := by
  have hlen : 0 < (endpointsIn xs).length := by
    rw [endpointsIn, endpoints_count, h]
    simp [isEndpointSymbol, he]
  exact ⟨_, List.head?_eq_some_head (List.ne_nil_of_length_pos hlen)⟩

/-- The edges of every connection follow its connectors in the text. -/
theorem parse_edges_follow (text : String) {c : Tree} (hc : c ∈ (parse text).tree.nodes)
    (hkind : c.kind? = some .shapeConnection) : FollowsConnectors c := by
  obtain ⟨e, u, w, hs, he, hu, hw⟩ := (parse_lawful text c hc).1.conforms hkind
  constructor
  · obtain ⟨htidy, hrefused⟩ := chain_symbols he hu hw
    have hmore : c.connectorTokens.length + 1 ≤ c.endpoints.length := by
      rw [endpoints, endpoints_count, connectorTokens, ownTokens, connectors_count, hs]
      by_cases h : Tidy (.node e :: (u ++ w))
      · exact (htidy h).ge
      · exact (hrefused h).ge.trans' (Nat.le_succ _)
    have hpaired : c.connectors.length = c.connectorTokens.length := connectors_paired c.elements
    rw [edges, List.length_map, List.length_zip, adjacent_length, hpaired]
    omega
  · intro before t after heq ht
    have hsplit : .node e :: (u ++ w) = signature before ++ .token t.kind :: signature after := by
      rw [← hs, heq, signature_append, signature_connector ht]
    obtain ⟨hcount, e', r, hnext, he'⟩ := links_split hu he ht (annotated_plain hw) hsplit
    have hturn : (endpointsIn before).length = (connectorsIn before).length + 1 := by
      rw [endpointsIn, endpoints_count, connectorsIn, connectors_count, hcount]
    obtain ⟨source, hsource⟩ : ∃ source, (endpointsIn before).getLast? = some source :=
      ⟨_, List.getLast?_eq_some_getLast (List.ne_nil_of_length_eq_add_one hturn)⟩
    obtain ⟨target, htarget⟩ := endpoint_first hnext he'
    obtain ⟨connector, hconnector⟩ := Option.isSome_iff_exists.mp ht
    refine ⟨⟨source, connector, target⟩, ?_, hconnector, hsource, htarget⟩
    have hends : c.endpoints = endpointsIn before ++ endpointsIn after := by
      rw [endpoints, heq, List.filterMap_append]
      rfl
    have hconnectors : c.connectors[(connectorsIn before).length]? = some connector := by
      rw [connectors, ownTokens, heq, ← connectors_paired]
      simp [token?, hconnector]
    rw [edges, List.getElem?_map, Option.map_eq_some_iff]
    refine ⟨(connector, source, target), List.getElem?_zip_eq_some.mpr ⟨hconnectors, ?_⟩, rfl⟩
    rw [hends]
    exact adjacent_meet hturn hsource htarget

theorem left_out_follow :
    let c := (parse "-> b -- -- {a} -> c: l {near: x}").tree.nodes.get ⟨1, by decide +kernel⟩
    c.kind? = some .shapeConnection ∧ FollowsConnectors c := by
  intro c
  have hkind : c.kind? = some .shapeConnection := by decide +kernel
  exact ⟨hkind, parse_edges_follow "-> b -- -- {a} -> c: l {near: x}" (List.get_mem _ _) hkind⟩

end DiagramText.ChainEdges
