import DiagramText.Proofs.Numbering
import Mathlib.Data.List.Sort

/-!
# Walks over an arena

In an arena that holds a tree the nodes below a node have a run of numbers,
and so have the tokens below it. A walk from the node goes through this run,
which is made of the nodes that have it among their ancestors. The tokens from
the first to the last below the node are those that these nodes hold.
-/

set_option autoImplicit false

namespace DiagramText.Walks
open Arena DiagramText.Tree Layout DiagramText.Numbering

section
variable {a : Arena} {p q : Option Nat} {n k i j : Nat} {xs : List Tree}

theorem slots_stored {d : NodeData} (h : a.nodes[i]? = some d) : a.slots i = d.slots := by
  rw [slots, h]
  rfl

theorem parent_stored {d : NodeData} (h : a.nodes[i]? = some d) : a.parent? i = d.parent? := by
  rw [parent?, h]
  rfl

theorem ids_node (n : Nat) (ss : List Slot) : nodeIds (.node n :: ss) = n :: nodeIds ss := rfl

theorem visit_row (h : StoresRow a p n k xs) (stack : List Nat) :
    a.visit (nodeIds (slotsFrom n k xs) ++ stack) =
      List.range' n (nodeCount xs) ++ a.visit stack := by
  induction h generalizing stack with
  | nil => rfl
  | token _ _ ih => exact ih stack
  | @node p n k kind s cs xs stored _ _ ihc ih =>
    have hchildren : a.children n = nodeIds (slotsFrom (n + 1) k cs) := by
      rw [Arena.children, slots_stored stored]
    have hrange : List.range' n (1 + nodeCount cs + nodeCount xs) =
        n :: (List.range' (n + 1) (nodeCount cs) ++
          List.range' (n + 1 + nodeCount cs) (nodeCount xs)) := by
      rw [List.range'_append_1, Nat.add_assoc, Nat.add_comm 1, List.range'_succ]
    rw [slotsFrom, ids_node, List.cons_append, visit, hchildren, ihc, ih, nodeCount_node, hrange,
      List.cons_append, List.append_assoc]

theorem first_row (h : StoresRow a p n k xs) :
    (slotsFrom n k xs).findSome? (a.slotToken? false) =
      if tokenCount xs = 0 then none else some k := by
  induction h with
  | nil => rfl
  | token =>
    rw [slotsFrom, List.findSome?_cons, slotToken?]
    simp
  | @node p n k kind s cs xs stored _ _ ihc ih =>
    have hfirst : a.slotToken? false (.node n) = if tokenCount cs = 0 then none else some k := by
      rw [slotToken?, outerToken_slots, slots_stored stored]
      exact ihc
    rw [slotsFrom, List.findSome?_cons, hfirst, ih, tokenCount_node]
    by_cases hc : tokenCount cs = 0 <;> simp [hc]

theorem last_row (h : StoresRow a p n k xs) :
    (slotsFrom n k xs).reverse.findSome? (a.slotToken? true) =
      if tokenCount xs = 0 then none else some (k + tokenCount xs - 1) := by
  induction h with
  | nil => rfl
  | @token p n k t xs _ _ ih =>
    rw [slotsFrom, List.reverse_cons, List.findSome?_append, ih, tokenCount_token]
    by_cases hx : tokenCount xs = 0
    · simp [hx, slotToken?]
    · simp [hx, Nat.add_assoc]
  | @node p n k kind s cs xs stored _ _ ihc ih =>
    have hlast : a.slotToken? true (.node n) =
        if tokenCount cs = 0 then none else some (k + tokenCount cs - 1) := by
      rw [slotToken?, outerToken_slots, slots_stored stored]
      exact ihc
    rw [slotsFrom, List.reverse_cons, List.findSome?_append, ih, List.findSome?_singleton, hlast,
      tokenCount_node]
    by_cases hx : tokenCount xs = 0
    · simp [hx]
    · simp [hx, Nat.add_assoc]

theorem ids_parent (h : StoresRow a p n k xs) (hi : i ∈ nodeIds (slotsFrom n k xs)) :
    a.parent? i = p ∧ n ≤ i ∧ i < n + nodeCount xs := by
  induction h with
  | nil => simp [slotsFrom, nodeIds] at hi
  | token _ _ ih => exact ih hi
  | node stored _ _ _ ih =>
    rw [slotsFrom, ids_node] at hi
    rw [nodeCount_node]
    rcases List.mem_cons.mp hi with rfl | hi
    · exact ⟨parent_stored stored, by omega⟩
    · obtain ⟨hp, hle, hlt⟩ := ih hi
      exact ⟨hp, by omega⟩

theorem slot_holder (h : StoresRow a p n k xs) (hj : .token j ∈ slotsFrom n k xs) :
    a.holder? j = p ∧ k ≤ j ∧ j < k + tokenCount xs := by
  induction h with
  | nil => simp [slotsFrom] at hj
  | @token p n k t xs stored _ ih =>
    rw [slotsFrom] at hj
    rw [tokenCount_token]
    rcases List.mem_cons.mp hj with heq | hj
    · obtain rfl := Slot.token.inj heq
      exact ⟨by rw [holder?, stored]; rfl, by omega⟩
    · obtain ⟨hp, hle, hlt⟩ := ih hj
      exact ⟨hp, by omega⟩
  | @node p n k kind s cs xs _ _ _ _ ih =>
    rw [slotsFrom, List.mem_cons] at hj
    rw [tokenCount_node]
    obtain ⟨hp, hle, hlt⟩ := ih (hj.resolve_left (by simp))
    exact ⟨hp, by omega⟩

/-- The node with a number of the row: where it stands in the tree and what it is linked to. -/
structure Within (a : Arena) (p : Option Nat) (n k : Nat) (xs : List Tree) (q : Option Nat)
    (i j : Nat) (x : Tree) : Prop where
  held : StoresRow a q i j [x]
  nodes : ∃ before after, nodesAll xs = before ++ x.nodes ++ after ∧ i = n + before.length
  tokens : ∃ before after, tokensAll xs = before ++ x.tokens ++ after ∧ j = k + before.length
  linked : q = p ∧ i ∈ nodeIds (slotsFrom n k xs) ∨ ∃ r, q = some r ∧ n ≤ r ∧ i ∈ a.children r

section
variable {kind : NodeKind} {s : Nat} {cs : List Tree} {x : Tree}

theorem within_token (t : Token) (h : Within a p n (k + 1) xs q i j x) :
    Within a p n k (.token t :: xs) q i j x where
  held := h.held
  nodes := h.nodes
  tokens := by
    obtain ⟨before, after, htokens, hj⟩ := h.tokens
    refine ⟨t :: before, after, ?_, ?_⟩
    · rw [tokensAll, htokens]
      rfl
    · rw [hj, List.length_cons, Nat.add_assoc, Nat.add_comm 1]
  linked := h.linked

theorem within_inside (hslots : a.slots n = slotsFrom (n + 1) k cs)
    (h : Within a (some n) (n + 1) k cs q i j x) :
    Within a p n k (.node kind s cs :: xs) q i j x where
  held := h.held
  nodes := by
    obtain ⟨before, after, hnodes, hi⟩ := h.nodes
    refine ⟨.node kind s cs :: before, after ++ nodesAll xs, ?_, ?_⟩
    · rw [nodesAll, Tree.nodes, hnodes]
      simp
    · rw [hi, List.length_cons, Nat.add_assoc, Nat.add_comm 1]
  tokens := by
    obtain ⟨before, after, htokens, hj⟩ := h.tokens
    refine ⟨before, after ++ tokensAll xs, ?_, hj⟩
    rw [tokensAll, Tree.tokens, htokens]
    simp
  linked := by
    rcases h.linked with ⟨rfl, hmem⟩ | ⟨r, rfl, hr, hmem⟩
    · exact .inr ⟨n, rfl, Nat.le_refl n, by rwa [Arena.children, hslots]⟩
    · exact .inr ⟨r, rfl, by omega, hmem⟩

theorem within_rest (kind : NodeKind) (s : Nat)
    (h : Within a p (n + 1 + nodeCount cs) (k + tokenCount cs) xs q i j x) :
    Within a p n k (.node kind s cs :: xs) q i j x where
  held := h.held
  nodes := by
    obtain ⟨before, after, hnodes, hi⟩ := h.nodes
    refine ⟨.node kind s cs :: (nodesAll cs ++ before), after, ?_, ?_⟩
    · rw [nodesAll, Tree.nodes, hnodes]
      simp
    · rw [hi, nodeCount, List.length_cons, List.length_append]
      omega
  tokens := by
    obtain ⟨before, after, htokens, hj⟩ := h.tokens
    refine ⟨tokensAll cs ++ before, after, ?_, ?_⟩
    · rw [tokensAll, Tree.tokens, htokens]
      simp
    · rw [hj, tokenCount, List.length_append, Nat.add_assoc]
  linked := by
    rcases h.linked with ⟨rfl, hmem⟩ | ⟨r, rfl, hr, hmem⟩
    · exact .inl ⟨rfl, List.mem_cons_of_mem _ hmem⟩
    · exact .inr ⟨r, rfl, by omega, hmem⟩

end

theorem node_within (h : StoresRow a p n k xs) (hn : n ≤ i) (hi : i < n + nodeCount xs) :
    ∃ q j kind s cs, Within a p n k xs q i j (.node kind s cs) := by
  induction h with
  | nil =>
    rw [nodeCount_nil] at hi
    omega
  | @token p n k t xs _ _ ih =>
    obtain ⟨q, j, kind, s, cs, hx⟩ := ih hn hi
    exact ⟨q, j, kind, s, cs, within_token t hx⟩
  | @node p n k kind s cs xs stored inside rest ihc ih =>
    rw [nodeCount_node] at hi
    by_cases hself : i = n
    · subst hself
      exact ⟨p, k, kind, s, cs, .node stored inside (.nil _ _ _), ⟨[], nodesAll xs, rfl, rfl⟩,
        ⟨[], tokensAll xs, rfl, rfl⟩, .inl ⟨rfl, List.mem_cons_self⟩⟩
    · by_cases hc : i < n + 1 + nodeCount cs
      · obtain ⟨q, j, kind, s, cs, hx⟩ := ihc (by omega) hc
        exact ⟨q, j, kind, s, cs, within_inside (slots_stored stored) hx⟩
      · obtain ⟨q, j, kind', s', cs', hx⟩ := ih (by omega) (by omega)
        exact ⟨q, j, kind', s', cs', within_rest kind s hx⟩

theorem token_within (h : StoresRow a p n k xs) (hk : k ≤ j) (hj : j < k + tokenCount xs) :
    ∃ q t, a.tokens[j]? = some ⟨t, q⟩ ∧ (tokensAll xs)[j - k]? = some t ∧
      (p = some q ∧ .token j ∈ slotsFrom n k xs ∨
        n ≤ q ∧ q < n + nodeCount xs ∧ .token j ∈ a.slots q) := by
  induction h with
  | nil =>
    rw [tokenCount_nil] at hj
    omega
  | @token p n k t xs stored _ ih =>
    rw [tokenCount_token] at hj
    by_cases hself : j = k
    · subst hself
      exact ⟨p, t, stored, by simp [tokensAll, Tree.tokens], .inl ⟨rfl, List.mem_cons_self⟩⟩
    · obtain ⟨q, u, hu, hget, hlinked⟩ := ih (by omega) (by omega)
      refine ⟨q, u, hu, ?_, hlinked.imp_left (And.imp_right (List.mem_cons_of_mem _))⟩
      have hsub : j - k = j - (k + 1) + 1 := by omega
      rw [hsub]
      exact hget
  | @node p n k kind s cs xs stored _ _ ihc ih =>
    rw [tokenCount_node] at hj
    rw [nodeCount_node]
    by_cases hc : j < k + tokenCount cs
    · obtain ⟨q, u, hu, hget, hlinked⟩ := ihc hk hc
      refine ⟨q, u, hu, ?_, .inr ?_⟩
      · rw [tokensAll, Tree.tokens, List.getElem?_append_left (by rw [← tokenCount]; omega), hget]
      · rcases hlinked with ⟨hq, hmem⟩ | ⟨hle, hlt, hmem⟩
        · obtain rfl := Option.some.inj hq
          exact ⟨Nat.le_refl n, by omega, by rwa [slots_stored stored]⟩
        · exact ⟨by omega, by omega, hmem⟩
    · obtain ⟨q, u, hu, hget, hlinked⟩ := ih (by omega) (by omega)
      refine ⟨q, u, hu, ?_, ?_⟩
      · rw [tokensAll, Tree.tokens, List.getElem?_append_right (by rw [← tokenCount]; omega),
          ← hget]
        congr 1
        rw [← tokenCount]
        omega
      · rcases hlinked with ⟨hq, hmem⟩ | ⟨hle, hlt, hmem⟩
        · exact .inl ⟨hq, List.mem_cons_of_mem _ hmem⟩
        · exact .inr ⟨by omega, by omega, hmem⟩

/-- The walk from a node and its tokens are runs of numbers. -/
theorem held_node {kind : NodeKind} {s : Nat} {cs : List Tree}
    (h : StoresRow a q i j [.node kind s cs]) :
    a.parent? i = q ∧ a.slots i = slotsFrom (i + 1) j cs ∧ StoresRow a (some i) (i + 1) j cs ∧
      a.descendants i = List.range' i (1 + nodeCount cs) ∧
      a.tokensBelow i = List.range' j (tokenCount cs) := by
  have hvisit := visit_row h []
  have hfirst := first_row h
  have hlast := last_row h
  cases h with
  | node stored inside _ =>
    refine ⟨parent_stored stored, slots_stored stored, inside, ?_, ?_⟩
    · rw [List.append_nil, visit, List.append_nil, nodeCount_node] at hvisit
      exact hvisit
    · simp only [slotsFrom, List.reverse_singleton, List.findSome?_singleton, slotToken?,
        tokenCount_node, tokenCount_nil, Nat.add_zero] at hfirst hlast
      rw [tokensBelow, Arena.firstToken?, Arena.lastToken?, hfirst, hlast]
      by_cases hc : tokenCount cs = 0
      · simp [hc]
      · simp only [hc, if_false]
        congr 1
        omega

end

/-- The arena stores the tree and nothing else. -/
structure Stores (a : Arena) (t : Tree) : Prop where
  row : StoresRow a none 0 0 [t]
  nodeSize : a.nodes.size = nodeCount [t]
  tokenSize : a.tokens.size = tokenCount [t]

section
variable {a : Arena} {t : Tree} (h : Stores a t) {i j k : Nat}

include h

/-- Every stored node is one of the tree. -/
theorem stored_node (hi : i < a.nodes.size) :
    ∃ q k kind s cs, Within a none 0 0 [t] q i k (.node kind s cs) := by
  rw [h.nodeSize] at hi
  exact node_within h.row (Nat.zero_le i) (by omega)

omit h in
theorem parent_size {p : Nat} (hp : a.parent? i = some p) : i < a.nodes.size := by
  by_contra hi
  rw [parent?, Array.getElem?_eq_none (by omega)] at hp
  simp at hp

omit h in
theorem slot_size {s : Slot} (hs : s ∈ a.slots i) : i < a.nodes.size := by
  by_contra hi
  rw [slots, Array.getElem?_eq_none (by omega)] at hs
  simp at hs

theorem mem_children : j ∈ a.children i ↔ a.parent? j = some i := by
  constructor
  · intro hj
    obtain ⟨s, hs, -⟩ := List.mem_filterMap.mp hj
    obtain ⟨q, k, kind, s, cs, hx⟩ := stored_node h (slot_size hs)
    obtain ⟨-, hslots, hinside, -⟩ := held_node hx.held
    rw [Arena.children, hslots] at hj
    exact (ids_parent hinside hj).1
  · intro hp
    obtain ⟨q, k, kind, s, cs, hx⟩ := stored_node h (parent_size hp)
    obtain ⟨hq, -⟩ := held_node hx.held
    rw [hq] at hp
    rcases hx.linked with ⟨rfl, -⟩ | ⟨r, rfl, -, hr⟩
    · simp at hp
    · rwa [← Option.some.inj hp]

theorem mem_slots : .token k ∈ a.slots i ↔ a.holder? k = some i := by
  constructor
  · intro hk
    obtain ⟨q, j, kind, s, cs, hx⟩ := stored_node h (slot_size hk)
    obtain ⟨-, hslots, hinside, -⟩ := held_node hx.held
    rw [hslots] at hk
    exact (slot_holder hinside hk).1
  · intro hk
    obtain ⟨d, hd, hi⟩ := Option.map_eq_some_iff.mp hk
    have hlt : k < a.tokens.size := (Array.getElem?_eq_some_iff.mp hd).1
    rw [h.tokenSize] at hlt
    obtain ⟨q, u, hu, -, hlinked⟩ := token_within h.row (Nat.zero_le k) (by omega)
    obtain rfl : q = i := by
      rw [hu] at hd
      rw [← hi, ← Option.some.inj hd]
    exact (hlinked.resolve_left (by simp)).2.2

theorem descendant_size (hi : i < a.nodes.size) (hj : j ∈ a.descendants i) :
    i ≤ j ∧ j < a.nodes.size := by
  obtain ⟨q, k, kind, s, cs, hx⟩ := stored_node h hi
  obtain ⟨before, after, hnodes, hb⟩ := hx.nodes
  obtain ⟨-, -, -, hrun, -⟩ := held_node hx.held
  have hlength := congrArg List.length hnodes
  rw [hrun, List.mem_range'_1] at hj
  rw [h.nodeSize, nodeCount]
  simp only [List.length_append, Tree.nodes, List.length_cons] at hlength
  rw [nodeCount] at hj
  omega

theorem descendants_nested {r : Nat} (hi : i < a.nodes.size) (hr : r ∈ a.descendants i)
    (hj : j ∈ a.descendants r) : j ∈ a.descendants i := by
  obtain ⟨q, k, kind, s, cs, hx⟩ := stored_node h hi
  obtain ⟨-, -, -, hrun, -⟩ := held_node hx.held
  rw [hrun, List.mem_range'_1] at hr ⊢
  obtain ⟨q', k', kind', s', ds, hy⟩ := node_within hx.held hr.1 (by simpa using hr.2)
  obtain ⟨before, after, hnodes, hb⟩ := hy.nodes
  obtain ⟨-, -, -, hrun', -⟩ := held_node hy.held
  have hlength := congrArg List.length hnodes
  rw [hrun', List.mem_range'_1] at hj
  simp only [nodesAll, Tree.nodes, List.length_append, List.length_cons, List.length_nil]
    at hlength
  rw [nodeCount] at hj ⊢
  omega

theorem child_below (hp : a.parent? j = some i) : j ∈ a.descendants i := by
  have hj := (mem_children h).mpr hp
  obtain ⟨s, hs, -⟩ := List.mem_filterMap.mp hj
  obtain ⟨q, k, kind, s, cs, hx⟩ := stored_node h (slot_size hs)
  obtain ⟨-, hslots, hinside, hrun, -⟩ := held_node hx.held
  rw [Arena.children, hslots] at hj
  obtain ⟨-, hle, hlt⟩ := ids_parent hinside hj
  rw [hrun, List.mem_range'_1]
  omega

theorem parent_below (hi : i < a.nodes.size) (hj : j ∈ a.descendants i) (hne : j ≠ i) :
    ∃ r, a.parent? j = some r ∧ r ∈ a.descendants i := by
  obtain ⟨q, k, kind, s, cs, hx⟩ := stored_node h hi
  obtain ⟨-, -, hinside, hrun, -⟩ := held_node hx.held
  rw [hrun, List.mem_range'_1] at hj
  obtain ⟨q', k', kind', s', ds, hy⟩ := node_within hinside (i := j) (by omega) (by omega)
  obtain ⟨hparent, -⟩ := held_node hy.held
  rw [hrun]
  rcases hy.linked with ⟨rfl, -⟩ | ⟨r, rfl, hr, hmem⟩
  · exact ⟨i, hparent, List.mem_range'_1.mpr (by omega)⟩
  · obtain ⟨hlt, -⟩ := (a.children_stored r).1 j hmem
    exact ⟨r, hparent, List.mem_range'_1.mpr (by omega)⟩

theorem mem_descendants (hi : i < a.nodes.size) :
    j ∈ a.descendants i ↔ j < a.nodes.size ∧ i ∈ j :: a.ancestors j := by
  have hself : i ∈ a.descendants i := by
    rw [descendants, visit]
    exact List.mem_cons_self
  -- both directions climb from the node to its parent
  induction j using Nat.strong_induction_on with
  | _ j ih =>
    constructor
    · intro hj
      refine ⟨(descendant_size h hi hj).2, ?_⟩
      by_cases hne : j = i
      · subst hne
        exact List.mem_cons_self
      · obtain ⟨r, hr, hbelow⟩ := parent_below h hi hj hne
        rw [a.ancestors_parent hr]
        exact List.mem_cons_of_mem _ ((ih r (a.parent_lt hr)).mp hbelow).2
    · rintro ⟨hsize, hmem⟩
      rcases List.mem_cons.mp hmem with rfl | hmem
      · exact hself
      · cases hp : a.parent? j with
        | none => simp [a.ancestors_none hp] at hmem
        | some r =>
          rw [a.ancestors_parent hp] at hmem
          have hlt := a.parent_lt hp
          have hbelow := (ih r hlt).mpr ⟨by omega, hmem⟩
          exact descendants_nested h hi hbelow (child_below h hp)

theorem descendants_filter (hi : i < a.nodes.size) : a.descendants i =
    (List.range a.nodes.size).filter fun j => i ∈ j :: a.ancestors j := by
  obtain ⟨q, k, kind, s, cs, hx⟩ := stored_node h hi
  obtain ⟨-, -, -, hrun, -⟩ := held_node hx.held
  refine List.Pairwise.eq_of_mem_iff (r := (· < ·)) ?_ ?_ fun j => ?_
  · rw [hrun]
    exact List.pairwise_lt_range'
  · exact List.pairwise_lt_range.filter _
  · rw [mem_descendants h hi, List.mem_filter, List.mem_range]
    simp

omit h in
theorem parent_zero : a.parent? 0 = none := by
  cases hp : a.parent? 0 with
  | none => rfl
  | some p => exact absurd (a.parent_lt hp) (Nat.not_lt_zero p)

theorem ancestors_root (hi : 0 < i) (hsize : i < a.nodes.size) :
    ∃ p, a.parent? i = some p ∧ p < i ∧ (a.ancestors i).getLast? = some 0 := by
  induction i using Nat.strong_induction_on with
  | _ i ih =>
    obtain ⟨q, k, kind, s, cs, hx⟩ := stored_node h hsize
    obtain ⟨hparent, -⟩ := held_node hx.held
    rcases hx.linked with ⟨rfl, hmem⟩ | ⟨r, rfl, -, -⟩
    · -- the row of one tree has no other node than the first
      cases t with
      | token => simp [slotsFrom, nodeIds, Slot.node?] at hmem
      | node =>
        rw [slotsFrom, ids_node] at hmem
        simp [slotsFrom, nodeIds] at hmem
        omega
    · have hlt := a.parent_lt hparent
      refine ⟨r, hparent, hlt, ?_⟩
      rw [a.ancestors_parent hparent, List.getLast?_cons]
      by_cases hr : r = 0
      · rw [hr, a.ancestors_none parent_zero]
        rfl
      · obtain ⟨-, -, -, hlast⟩ := ih r hlt (by omega) (by omega)
        rw [hlast]
        rfl

theorem mem_tokensBelow (hi : i < a.nodes.size) :
    k ∈ a.tokensBelow i ↔ k < a.tokens.size ∧ ∃ r ∈ a.descendants i, a.holder? k = some r := by
  obtain ⟨q, j, kind, s, cs, hx⟩ := stored_node h hi
  obtain ⟨-, -, -, hrun, htokens⟩ := held_node hx.held
  obtain ⟨before, after, hall, hj⟩ := hx.tokens
  have hlength := congrArg List.length hall
  simp only [List.length_append, Tree.tokens] at hlength
  constructor
  · intro hk
    rw [htokens, List.mem_range'_1] at hk
    obtain ⟨r, u, hu, -, hlinked⟩ := token_within hx.held hk.1 (by simpa using hk.2)
    refine ⟨?_, r, ?_, ?_⟩
    · rw [h.tokenSize, tokenCount]
      rw [tokenCount] at hk
      omega
    · rcases hlinked with ⟨-, hmem⟩ | ⟨hle, hlt, -⟩
      · simp [slotsFrom] at hmem
      · rw [hrun, List.mem_range'_1]
        exact ⟨hle, by simpa using hlt⟩
    · rw [holder?, hu]
      rfl
  · rintro ⟨-, r, hr, hk⟩
    rw [hrun, List.mem_range'_1] at hr
    obtain ⟨q', j', kind', s', ds, hy⟩ := node_within hx.held hr.1 (by simpa using hr.2)
    obtain ⟨-, hslots, hinside, -⟩ := held_node hy.held
    have hmem := (mem_slots h).mpr hk
    rw [hslots] at hmem
    obtain ⟨-, hle, hlt⟩ := slot_holder hinside hmem
    obtain ⟨before', after', hinner, hj'⟩ := hy.tokens
    have hlength' := congrArg List.length hinner
    simp only [tokensAll, Tree.tokens, List.length_append, List.length_nil] at hlength'
    rw [htokens, List.mem_range'_1]
    rw [tokenCount] at hlt ⊢
    omega

theorem tokensBelow_filter (hi : i < a.nodes.size) : a.tokensBelow i =
    (List.range a.tokens.size).filter fun k =>
      (a.holder? k).any fun r => r ∈ a.descendants i := by
  obtain ⟨q, j, kind, s, cs, hx⟩ := stored_node h hi
  obtain ⟨-, -, -, -, htokens⟩ := held_node hx.held
  refine List.Pairwise.eq_of_mem_iff (r := (· < ·)) ?_ ?_ fun k => ?_
  · rw [htokens]
    exact List.pairwise_lt_range'
  · exact List.pairwise_lt_range.filter _
  · rw [mem_tokensBelow h hi, List.mem_filter, List.mem_range]
    simp [Option.any_eq_true, and_comm]

end

end DiagramText.Walks
