import DiagramText.Proofs.Schema
import DiagramText.Tree.Place

/-!
# How deep trees nest

Braced bodies and arrays are groups. The way from the root down to a node
passes through groups and through the nodes between them, and the productions
allow few of these: after a group at most a statement, a value and an error
node. So a bound on the groups of every way is a bound on its length, and on
the depth of every recursion over the tree.
-/

set_option autoImplicit false

namespace DiagramText.Depth
open Production Schema Layout DiagramText.Tree

def isGroup : NodeKind → Bool
  | .subShapeDefinition | .inlineShapeDefinition | .blockDefinition | .array => true
  | _ => false

/-- How many of the nodes are groups. -/
def groups (ns : List Tree) : Nat := ns.countP fun n => n.kind?.any isGroup

/-- The most groups on a way down through a row of trees. -/
def groupDepth : List Tree → Nat
  | [] => 0
  | .token _ :: xs => groupDepth xs
  | .node k _ cs :: xs => max ((isGroup k).toNat + groupDepth cs) (groupDepth xs)

def height : List Tree → Nat
  | [] => 0
  | .token _ :: xs => height xs
  | .node _ _ cs :: xs => max (height cs + 1) (height xs)

theorem groupDepth_node (k : NodeKind) (s : Nat) (cs : List Tree) :
    groupDepth [.node k s cs] = (isGroup k).toNat + groupDepth cs := by
  simp [groupDepth]

theorem groupDepth_append (xs ys : List Tree) :
    groupDepth (xs ++ ys) = max (groupDepth xs) (groupDepth ys) := by
  induction xs with
  | nil => simp [groupDepth]
  | cons x xs ih => cases x <;> simp [groupDepth, ih, max_assoc]

theorem groupDepth_tokens (ts : List Token) : groupDepth (ts.map .token) = 0 := by
  induction ts with
  | nil => simp [groupDepth]
  | cons t ts ih => simpa [groupDepth] using ih

theorem groups_node (k : NodeKind) (s : Nat) (cs ns : List Tree) :
    groups (.node k s cs :: ns) = groups ns + (isGroup k).toNat := by
  cases h : isGroup k <;> simp [groups, kind?, h]

theorem places_nodes (above xs : List Tree) :
    (placesUnderAll above xs).map (·.node) = nodesAll xs := by
  induction xs using forest_induction generalizing above with
  | nil => rfl
  | token t xs ih => simpa [placesUnderAll, placesUnder, nodesAll, nodes] using ih above
  | node k s cs xs ihc ih => simp [placesUnderAll, placesUnder, nodesAll, nodes, ihc, ih]

theorem tree_places (t : Tree) : t.places.map (·.node) = t.nodes := by
  simpa [places, placesUnderAll, nodesAll] using places_nodes [] [t]

theorem place_node {t : Tree} {p : Place} (h : p ∈ t.places) : p.node ∈ t.nodes := by
  rw [← tree_places]
  exact List.mem_map_of_mem h

theorem node_place {t n : Tree} (h : n ∈ t.nodes) : ∃ p ∈ t.places, p.node = n := by
  rw [← tree_places] at h
  exact List.mem_map.mp h

theorem place_groups (above xs : List Tree) :
    ∀ p ∈ placesUnderAll above xs, groups (p.node :: p.above) ≤ groups above + groupDepth xs := by
  induction xs using forest_induction generalizing above with
  | nil => simp [placesUnderAll]
  | token t xs ih => simpa [placesUnderAll, placesUnder, groupDepth] using ih above
  | node k s cs xs ihc ih =>
    intro p hp
    simp only [placesUnderAll, placesUnder, List.cons_append, List.mem_cons,
      List.mem_append] at hp
    simp only [groupDepth]
    rcases hp with rfl | hp | hp
    · have hhere := groups_node k s cs above
      simp only [hhere]
      omega
    · have hbelow := ihc _ p hp
      rw [groups_node] at hbelow
      omega
    · have hbeside := ih above p hp
      omega

theorem height_places (xs : List Tree) (above : List Tree) (bound : Nat)
    (h : ∀ p ∈ placesUnderAll above xs, p.above.length < bound) :
    above.length + height xs ≤ max bound above.length := by
  induction xs using forest_induction generalizing above with
  | nil => simp [height]
  | token t xs ih => simpa [height] using ih above (by simpa [placesUnderAll, placesUnder] using h)
  | node k s cs xs ihc ih =>
    simp only [placesUnderAll, placesUnder, List.cons_append, List.mem_cons, List.mem_append] at h
    have hhere : above.length < bound := h _ (.inl rfl)
    have hbelow := ihc (.node k s cs :: above) fun p hp => h p (.inr (.inl hp))
    have hbeside := ih above fun p hp => h p (.inr (.inr hp))
    simp only [height, List.length_cons] at hbelow hbeside ⊢
    omega

def slack : NodeKind → Nat
  | .document | .subShapeDefinition | .inlineShapeDefinition | .blockDefinition => 0
  | .shapeDefinition | .shapeConnection | .property | .array => 1
  | .shapeId | .labelDefinition | .propertyKey | .attributeValue => 2
  | .error => 3

/-- A step down a way costs one node, which the kind below or its group pays for. -/
def Steps (parent child : NodeKind) : Prop :=
  slack parent + 1 ≤ slack child + 2 * (isGroup child).toNat

instance (parent child : NodeKind) : Decidable (Steps parent child) :=
  inferInstanceAs (Decidable (_ ≤ _))

theorem item_steps {scope : Grammar.Scope} {k child : NodeKind} (hk : slack k = 0)
    (h : allowed scope (.node child) = true) : Steps k child := by
  cases scope <;> cases child <;>
    simp_all [Steps, slack, allowed, isGroup, NodeKind.isStatement]

theorem enclosed_steps {opening closing : TokenKind} {inside : List Symbol → Prop}
    {xs : List Tree} (h : Enclosed opening closing inside xs) {child : NodeKind}
    (hx : Symbol.node child ∈ signature xs) :
    ∃ w, inside w ∧ Symbol.node child ∈ w := by
  obtain ⟨t, body, close, rfl, -, hinside, hclose⟩ := h
  refine ⟨signature body, hinside, ?_⟩
  have hnode (u : Token) : Symbol.node child ∉ signature [.token u] := by
    simp only [signature, List.filterMap_cons, List.filterMap_nil, symbol?]
    cases u.isTrivia <;> simp
  rw [← List.singleton_append, signature_append, signature_append, List.mem_append,
    List.mem_append] at hx
  rcases hx with hx | hx | hx
  · exact absurd hx (hnode t)
  · exact hx
  · rcases hclose with rfl | ⟨u, rfl, -⟩
    · simp at hx
    · exact absurd hx (hnode u)

theorem annotated_steps {k label body child : NodeKind} {w : List Symbol}
    (h : Annotated label body w) (hx : Symbol.node child ∈ w) (hl : Steps k label)
    (hb : Steps k body) (he : Steps k .error) : Steps k child := by
  obtain ⟨l, b, rfl, hlabel, hbody⟩ := h
  rcases List.mem_append.mp hx with hx | hx
  · cases hlabel <;> simp_all
  · cases hbody <;> simp_all

theorem links_endpoint {w : List Symbol} (h : Links w) {child : NodeKind}
    (hx : Symbol.node child ∈ w) : isEndpoint child = true := by
  induction h with
  | nil => simp at hx
  | cons hk he rest ih =>
    simp only [List.mem_cons, reduceCtorEq, Symbol.node.injEq, false_or] at hx
    rcases hx with rfl | hx
    · exact he
    · exact ih hx

theorem endpoint_steps {child : NodeKind} (h : isEndpoint child = true) :
    Steps .shapeConnection child := by
  cases child <;> simp_all [isEndpoint, Steps, slack, isGroup]

theorem nodeless_signature {xs : List Tree} (h : Nodeless xs) {child : NodeKind} :
    Symbol.node child ∉ signature xs := by
  intro hx
  obtain ⟨x, hmem, hs⟩ := List.mem_filterMap.mp hx
  cases x with
  | token t =>
    simp only [symbol?] at hs
    split at hs <;> simp at hs
  | node => simpa [isNode, kind?] using h _ hmem

theorem conforms_steps {k child : NodeKind} {xs : List Tree} (h : Conforms k xs)
    (hx : Symbol.node child ∈ signature xs) : Steps k child := by
  cases k with
  | document => exact item_steps rfl (h _ hx)
  | subShapeDefinition | inlineShapeDefinition | blockDefinition =>
    obtain ⟨w, hw, hmem⟩ := enclosed_steps h hx
    exact item_steps rfl (hw _ hmem)
  | array =>
    obtain ⟨w, hw, hmem⟩ := enclosed_steps h hx
    have helement := hw _ hmem
    obtain rfl : child = .attributeValue := by simpa [isElement] using helement
    decide
  | shapeDefinition =>
    obtain ⟨w, hw, hann⟩ := h
    rw [hw, List.mem_cons] at hx
    rcases hx with hx | hx
    · obtain rfl : child = .shapeId := by simpa using hx
      decide
    · exact annotated_steps hann hx (by decide) (by decide) (by decide)
  | property =>
    obtain ⟨w, hw, hann⟩ := h
    rw [hw, List.mem_cons] at hx
    rcases hx with hx | hx
    · obtain rfl : child = .propertyKey := by simpa using hx
      decide
    · exact annotated_steps hann hx (by decide) (by decide) (by decide)
  | shapeConnection =>
    obtain ⟨e, u, w, hw, he, hlinks, hann⟩ := h
    rw [hw, List.mem_cons, List.mem_append] at hx
    rcases hx with hx | hx | hx
    · obtain rfl : child = e := by simpa using hx
      exact endpoint_steps he
    · exact endpoint_steps (links_endpoint hlinks hx)
    · exact annotated_steps hann hx (by decide) (by decide) (by decide)
  | attributeValue =>
    rcases h with h | ⟨x, rfl, h⟩
    · exact absurd hx (nodeless_signature h)
    · cases x with
      | token t => simp [isKind, kind?] at h
      | node c s cs =>
        obtain rfl : child = c := by simpa [signature, symbol?] using hx
        rcases h with h | h
        · obtain rfl : child = .array := by simpa [isKind, kind?] using h
          decide
        · obtain rfl : child = .error := by simpa [isKind, kind?] using h
          decide
  | shapeId | labelDefinition | propertyKey | error => exact absurd hx (nodeless_signature h)

theorem place_length {k : NodeKind} {above xs : List Tree}
    (hsteps : ∀ child, Symbol.node child ∈ signature xs → Steps k child)
    (hlawful : ∀ n ∈ nodesAll xs, Lawful n)
    (habove : above.length ≤ 2 * groups above + slack k + 1) :
    ∀ p ∈ placesUnderAll above xs, ∃ child, p.node.kind? = some child ∧
      p.above.length ≤ 2 * groups (p.node :: p.above) + slack child := by
  induction xs using forest_induction generalizing above k with
  | nil => simp [placesUnderAll]
  | token t xs ih =>
    simp only [placesUnderAll, placesUnder, List.nil_append]
    refine ih (fun child hc => hsteps child ?_) (by simpa [nodesAll, nodes] using hlawful) habove
    rw [← List.singleton_append, signature_append]
    exact List.mem_append_right _ hc
  | node child s cs xs ihc ih =>
    have hstep := hsteps child (by simp)
    have hself := forall_nodes_node.mp fun n hn => hlawful n (by
      simp only [nodesAll, List.append_nil] at hn ⊢
      exact List.mem_append_left _ hn)
    obtain ⟨⟨k', hk', hconforms⟩, hbelow⟩ := hself
    obtain rfl : child = k' := by simpa [kind?] using hk'
    -- the step down to the node is within the budget of its kind
    have hhere : above.length ≤ 2 * groups (.node child s cs :: above) + slack child := by
      rw [groups_node]
      unfold Steps at hstep
      omega
    intro p hp
    simp only [placesUnderAll, placesUnder, List.cons_append, List.mem_cons,
      List.mem_append] at hp
    rcases hp with rfl | hp | hp
    · exact ⟨child, rfl, hhere⟩
    · refine ihc (fun c hc => conforms_steps hconforms hc) hbelow ?_ p hp
      simp only [List.length_cons]
      omega
    · refine ih (fun c hc => hsteps c (by simp [hc])) (fun n hn => hlawful n ?_) habove p hp
      simp [nodesAll, hn]

end DiagramText.Depth
