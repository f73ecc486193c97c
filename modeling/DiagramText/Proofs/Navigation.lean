import DiagramText.Proofs.Depth
import DiagramText.Proofs.Lossless
import DiagramText.Proofs.Walks

/-!
# Ways through a tree

The nodes and tokens of a text are numbered in document order, and all ways
through its tree follow the numbers: down to the children, up to the parent,
along the nodes and tokens below a node. They lead where the tree itself does,
and halving the row of tokens finds the one at an offset.
-/

set_option autoImplicit false

namespace DiagramText.Navigation
open Text Scanning Arena DiagramText.Tree Layout DiagramText.Numbering Walks

theorem nodesAll_one (t : Tree) : nodesAll [t] = t.nodes := List.append_nil _

theorem tokensAll_one (t : Tree) : tokensAll [t] = t.tokens := List.append_nil _

theorem partition_found {test : Nat → Bool} {low high k : Nat} (hlow : low ≤ k) (hhigh : k ≤ high)
    (below : ∀ i, i < k → test i = true) (above : ∀ i, k ≤ i → i < high → test i = false) :
    partitionPoint test low high = k := by
  fun_induction partitionPoint test low high with
  | case1 low high hlt htest ih =>
    refine ih ?_ hhigh above
    by_contra hk
    have hfails := above ((low + high) / 2) (by omega) (by omega)
    simp [hfails] at htest
  | case2 low high hlt htest ih =>
    refine ih hlow ?_ fun i hi hlt' => above i hi (by omega)
    by_contra hk
    exact htest (below ((low + high) / 2) (by omega))
  | case3 low high hlt => omega

/-- In a tiled row one token stands at an offset, those before it have ended, and those behind it
have not started. -/
theorem tiled_found {o offset : Nat} {ts : List Token} (h : Tiled o ts) (hle : o ≤ offset)
    (hlt : offset < o + byteSize (spelled ts)) :
    ∃ (k : Nat) (t : Token), ts[k]? = some t ∧ t.start ≤ offset ∧ offset < t.stop ∧
      (∀ (i : Nat) (u : Token), i < k → ts[i]? = some u → u.stop ≤ offset) ∧
      ∀ (i : Nat) (u : Token), k < i → ts[i]? = some u → offset < u.start := by
  induction ts generalizing o with
  | nil =>
    rw [spelled_nil, byteSize_nil] at hlt
    omega
  | cons t ts ih =>
    obtain ⟨rfl, -, hrest⟩ := h
    by_cases hstop : offset < t.stop
    · refine ⟨0, t, rfl, hle, hstop, fun i u hi => absurd hi (Nat.not_lt_zero i), ?_⟩
      intro i u hi hu
      obtain ⟨i, rfl⟩ := Nat.exists_eq_succ_of_ne_zero (Nat.ne_of_gt hi)
      have hstart := tiled_starts hrest u (List.mem_of_getElem? hu)
      omega
    · have hsize : offset < t.stop + byteSize (spelled ts) := by
        rw [spelled_cons, byteSize_append] at hlt
        rw [Token.stop]
        omega
      obtain ⟨k, v, hv, hvle, hvlt, hbefore, hbehind⟩ := ih hrest (by omega) hsize
      refine ⟨k + 1, v, hv, hvle, hvlt, ?_, ?_⟩
      · intro i u hi hu
        cases i with
        | zero =>
          obtain rfl : t = u := Option.some.inj hu
          omega
        | succ i => exact hbefore i u (by omega) hu
      · intro i u hi hu
        obtain ⟨i, rfl⟩ := Nat.exists_eq_succ_of_ne_zero (show i ≠ 0 by omega)
        exact hbehind i u (by omega) hu

theorem tiled_end {o : Nat} {ts : List Token} {t : Token} (h : Tiled o ts) (ht : t ∈ ts) :
    t.stop ≤ o + byteSize (spelled ts) := by
  obtain ⟨before, after, rfl⟩ := List.append_of_mem ht
  have hstart := tiled_start h
  rw [spelled_append, spelled_cons, byteSize_append, byteSize_append, Token.stop, hstart]
  omega

theorem span_contains {t : Token} {offset : Nat} :
    t.span.contains offset = true ↔ t.start ≤ offset ∧ offset < t.stop := by
  rw [Span.contains, Bool.and_eq_true, decide_eq_true_iff, decide_eq_true_iff]
  rfl

section
variable {a : Arena} {t : Tree} (h : Stores a t) {k offset : Nat}

include h

theorem stored_token (k : Nat) : a.tokens[k]?.map (·.token) = t.tokens[k]? := by
  have hcount : tokenCount [t] = t.tokens.length := congrArg List.length (tokensAll_one t)
  by_cases hk : k < a.tokens.size
  · rw [h.tokenSize] at hk
    obtain ⟨q, u, hu, hget, -⟩ := token_within h.row (Nat.zero_le k) (by omega)
    rw [tokensAll_one, Nat.sub_zero] at hget
    rw [hu, hget]
    rfl
  · rw [Array.getElem?_eq_none (by omega), List.getElem?_eq_none]
    · rfl
    · rw [← hcount, ← h.tokenSize]
      omega

theorem span_stored {u : Token} (hu : t.tokens[k]? = some u) : a.tokenSpan k = u.span := by
  rw [← stored_token h] at hu
  obtain ⟨d, hd, rfl⟩ := Option.map_eq_some_iff.mp hu
  rw [tokenSpan, hd]
  rfl

theorem token_stored (hk : k < a.tokens.size) : ∃ u, t.tokens[k]? = some u := by
  rw [← stored_token h, Array.getElem?_eq_getElem hk]
  exact ⟨_, rfl⟩

theorem stored_size {u : Token} (hu : t.tokens[k]? = some u) : k < a.tokens.size := by
  rw [← stored_token h] at hu
  obtain ⟨d, hd, -⟩ := Option.map_eq_some_iff.mp hu
  exact (Array.getElem?_eq_some_iff.mp hd).1

theorem token_found (tiled : Tiled 0 t.tokens) (hlt : offset < byteSize (spelled t.tokens)) :
    ∃ k u, a.tokenAt? offset = some k ∧ t.tokens[k]? = some u ∧ u.span.contains offset = true ∧
      ∀ i v, t.tokens[i]? = some v → v.span.contains offset = true → i = k := by
  obtain ⟨k, u, hu, hle, hstop, hbefore, hbehind⟩ :=
    tiled_found tiled (Nat.zero_le offset) (by omega)
  have hpoint : partitionPoint (fun k => (a.tokenSpan k).stop ≤ offset) 0 a.tokens.size = k := by
    refine partition_found (Nat.zero_le k) (stored_size h hu).le ?_ ?_
    · intro i hi
      obtain ⟨v, hv⟩ := token_stored h (hi.trans (stored_size h hu))
      rw [span_stored h hv]
      exact decide_eq_true (hbefore i v hi hv)
    · intro i hi hsize
      obtain ⟨v, hv⟩ := token_stored h hsize
      have hwide := tiled_widths tiled v (List.mem_of_getElem? hv)
      have hend : offset < v.stop := by
        rcases Nat.lt_or_eq_of_le hi with hi | rfl
        · exact (hbehind i v hi hv).trans hwide
        · rwa [← Option.some.inj (hu.symm.trans hv)]
      rw [span_stored h hv]
      exact decide_eq_false (Nat.not_le.mpr hend)
  have hin := span_contains.mpr ⟨hle, hstop⟩
  refine ⟨k, u, ?_, hu, hin, ?_⟩
  · rw [Arena.tokenAt?, hpoint, if_pos ⟨stored_size h hu, by rw [span_stored h hu]; exact hin⟩]
  · intro i v hv hcontains
    obtain ⟨hstart, hend⟩ := span_contains.mp hcontains
    rcases Nat.lt_trichotomy i k with hi | hi | hi
    · have := hbefore i v hi hv
      omega
    · exact hi
    · have := hbehind i v hi hv
      omega

theorem token_beyond (tiled : Tiled 0 t.tokens) (hge : byteSize (spelled t.tokens) ≤ offset) :
    a.tokenAt? offset = none := by
  have hpoint : partitionPoint (fun k => (a.tokenSpan k).stop ≤ offset) 0 a.tokens.size =
      a.tokens.size := by
    refine partition_found (Nat.zero_le _) (Nat.le_refl _) ?_ fun i hi hlt => by omega
    intro i hi
    obtain ⟨v, hv⟩ := token_stored h hi
    have hend := tiled_end tiled (List.mem_of_getElem? hv)
    rw [Nat.zero_add] at hend
    rw [span_stored h hv]
    exact decide_eq_true (hend.trans hge)
  rw [Arena.tokenAt?, hpoint, if_neg fun hand => absurd hand.1 (Nat.lt_irrefl _)]

end

section
variable {a : Arena} {t : Tree} (h : Stores a t) {k offset : Nat}

include h

theorem tokenAt_some (tiled : Tiled 0 t.tokens) : a.tokenAt? offset = some k ↔
    ∃ d, a.tokens[k]? = some d ∧ d.token.span.contains offset = true := by
  by_cases hlt : offset < byteSize (spelled t.tokens)
  · obtain ⟨k', u, hat, hu, hin, hone⟩ := token_found h tiled hlt
    constructor
    · intro hk
      obtain rfl : k' = k := Option.some.inj (hat.symm.trans hk)
      rw [← stored_token h] at hu
      obtain ⟨d, hd, rfl⟩ := Option.map_eq_some_iff.mp hu
      exact ⟨d, hd, hin⟩
    · rintro ⟨d, hd, hcontains⟩
      rw [hat, hone k d.token (by rw [← stored_token h, hd]; rfl) hcontains]
  · rw [token_beyond h tiled (Nat.le_of_not_lt hlt)]
    constructor
    · simp
    · rintro ⟨d, hd, hcontains⟩
      have hmem : d.token ∈ t.tokens := by
        apply List.mem_of_getElem? (i := k)
        rw [← stored_token h, hd]
        rfl
      have hend := tiled_end tiled hmem
      have hcontains := (span_contains.mp hcontains).2
      omega

theorem tokenAt_none (tiled : Tiled 0 t.tokens) :
    a.tokenAt? offset = none ↔ byteSize (spelled t.tokens) ≤ offset := by
  constructor
  · intro hnone
    by_contra hlt
    obtain ⟨k, u, hat, -⟩ := token_found h tiled (Nat.lt_of_not_le hlt)
    simp [hat] at hnone
  · exact token_beyond h tiled

end

/-- The numbers are those of the nodes, in this order. -/
def Numbers (t : Tree) (ids : List Nat) (xs : List Tree) : Prop :=
  ids.map (t.nodes[·]?) = xs.map some

theorem range_numbers {α : Type} {all before ys after : List α}
    (h : all = before ++ ys ++ after) :
    (List.range' before.length ys.length).map (all[·]?) = ys.map some := by
  apply List.ext_getElem?
  intro i
  by_cases hi : i < ys.length
  · simp [h, hi, List.getElem?_append]
  · simp [hi]

/-- The trees of a row stand among all nodes, the first of them with the number `n`. -/
def StandsAt (t : Tree) (n : Nat) (xs : List Tree) : Prop :=
  ∃ before after, t.nodes = before ++ nodesAll xs ++ after ∧ n = before.length

section
variable {a : Arena} {t : Tree} {p : Option Nat} {n k : Nat} {xs cs : List Tree}
  {kind : NodeKind} {s : Nat}

theorem root_stands (t : Tree) : StandsAt t 0 [t] := ⟨[], [], by simp [nodesAll], rfl⟩

theorem node_stands (h : StandsAt t n (.node kind s cs :: xs)) :
    t.nodes[n]? = some (.node kind s cs) ∧ StandsAt t (n + 1) cs ∧
      StandsAt t (n + 1 + nodeCount cs) xs := by
  obtain ⟨before, after, hnodes, rfl⟩ := h
  rw [nodesAll, Tree.nodes] at hnodes
  refine ⟨by simp [hnodes], ⟨before ++ [.node kind s cs], nodesAll xs ++ after, ?_, ?_⟩,
    ⟨before ++ .node kind s cs :: nodesAll cs, after, ?_, ?_⟩⟩
  · simp [hnodes]
  · simp
  · simp [hnodes]
  · simp [nodeCount, Nat.add_assoc, Nat.add_comm 1]

theorem token_stands {u : Token} (h : StandsAt t n (.token u :: xs)) : StandsAt t n xs := h

theorem ids_numbered (h : StandsAt t n xs) :
    Numbers t (nodeIds (slotsFrom n k xs)) (xs.filter isNode) := by
  induction xs generalizing n k with
  | nil => rfl
  | cons x xs ih =>
    cases x with
    | token u => exact ih (token_stands h)
    | node kind s cs =>
      obtain ⟨hget, -, hrest⟩ := node_stands h
      rw [Numbers, slotsFrom, ids_node, List.map_cons, ih hrest, hget]
      rfl

/-- The nodes above a node with this parent. -/
def lineage (a : Arena) (p : Option Nat) : List Nat := p.elim [] fun q => q :: a.ancestors q

theorem ancestors_lineage (a : Arena) (i : Nat) : a.ancestors i = lineage a (a.parent? i) := by
  cases hp : a.parent? i with
  | none => exact a.ancestors_none hp
  | some q => exact a.ancestors_parent hp

theorem places_row (h : StoresRow a p n k xs) (hl : StandsAt t n xs) {above : List Tree}
    (hp : Numbers t (lineage a p) above) :
    ∀ (i : Nat) (pl : Place), (placesUnderAll above xs)[i]? = some pl →
      t.nodes[n + i]? = some pl.node ∧ Numbers t (a.ancestors (n + i)) pl.above := by
  induction h generalizing above with
  | nil => simp [placesUnderAll]
  | token _ _ ih => exact ih (token_stands hl) hp
  | @node p n k kind s cs xs stored inside rest ihc ih =>
    obtain ⟨hget, hinside, hrest⟩ := node_stands hl
    have hlineage : a.ancestors n = lineage a p := by
      rw [ancestors_lineage, parent_stored stored]
    have hbelow : Numbers t (lineage a (some n)) (.node kind s cs :: above) := by
      rw [Numbers, lineage, Option.elim_some, List.map_cons, hget, hlineage, hp]
      rfl
    have hlength : (placesUnderAll (.node kind s cs :: above) cs).length = nodeCount cs := by
      rw [nodeCount, ← Depth.places_nodes (.node kind s cs :: above), List.length_map]
    intro i pl hpl
    rw [placesUnderAll, placesUnder, List.cons_append] at hpl
    cases i with
    | zero =>
      obtain rfl := Option.some.inj hpl
      exact ⟨hget, by rw [Nat.add_zero, hlineage]; exact hp⟩
    | succ i =>
      rw [List.getElem?_cons_succ] at hpl
      by_cases hi : i < nodeCount cs
      · rw [List.getElem?_append_left (by omega)] at hpl
        have hplace := ihc hinside hbelow i pl hpl
        rwa [Nat.add_assoc, Nat.add_comm 1 i] at hplace
      · rw [List.getElem?_append_right (by omega), hlength] at hpl
        have hplace := ih hrest hp _ pl hpl
        rwa [show n + 1 + nodeCount cs + (i - nodeCount cs) = n + (i + 1) by omega] at hplace

theorem leaves_tokens (holder : Tree) (xs : List Tree) :
    (leavesAll holder xs).map (·.1) = tokensAll xs := by
  induction xs using forest_induction generalizing holder with
  | nil => rfl
  | token t xs ih => simpa [leavesAll, leaves, tokensAll, Tree.tokens] using ih holder
  | node k s cs xs ihc ih =>
    rw [leavesAll, leaves, List.map_append, ihc, ih, tokensAll, Tree.tokens]

theorem leaves_row (h : StoresRow a p n k xs) (hl : StandsAt t n xs) {holder : Tree}
    (hp : ∀ q, p = some q → t.nodes[q]? = some holder) :
    ∀ (j : Nat) (leaf : Token × Tree), (leavesAll holder xs)[j]? = some leaf →
      ∃ r, a.tokens[k + j]? = some ⟨leaf.1, r⟩ ∧ t.nodes[r]? = some leaf.2 := by
  induction h generalizing holder with
  | nil => simp [leavesAll]
  | @token p n k u xs stored _ ih =>
    intro j leaf hleaf
    rw [leavesAll, leaves, List.singleton_append] at hleaf
    cases j with
    | zero =>
      obtain rfl := Option.some.inj hleaf
      exact ⟨p, stored, hp p rfl⟩
    | succ j =>
      obtain ⟨r, hr, hget⟩ := ih (token_stands hl) hp j leaf hleaf
      rw [Nat.add_assoc, Nat.add_comm 1 j] at hr
      exact ⟨r, hr, hget⟩
  | @node p n k kind s cs xs stored inside rest ihc ih =>
    obtain ⟨hget, hinside, hrest⟩ := node_stands hl
    have hlength : (leavesAll (.node kind s cs) cs).length = tokenCount cs := by
      rw [tokenCount, ← leaves_tokens (.node kind s cs), List.length_map]
    intro j leaf hleaf
    rw [leavesAll, leaves] at hleaf
    by_cases hj : j < tokenCount cs
    · rw [List.getElem?_append_left (by omega)] at hleaf
      refine ihc hinside (fun q hq => ?_) j leaf hleaf
      rwa [← Option.some.inj hq]
    · rw [List.getElem?_append_right (by omega), hlength] at hleaf
      obtain ⟨r, hr, hholder⟩ := ih hrest hp _ leaf hleaf
      rw [show k + tokenCount cs + (j - tokenCount cs) = k + j by omega] at hr
      exact ⟨r, hr, hholder⟩

end

/-- What the numbers of an arena say about the tree and its document of so many bytes. -/
structure Navigable (a : Arena) (t : Tree) (size : Nat) : Prop where
  nodes : a.nodes.toList.map (fun d => (some d.kind, d.span)) =
    t.nodes.map fun n => (n.kind?, n.span)
  tokens : a.tokens.toList.map (·.token) = t.tokens
  subtree : ∀ i n, t.nodes[i]? = some n → Numbers t (a.descendants i) n.nodes ∧
    Numbers t (a.children i) n.children ∧
    (a.tokensBelow i).map (t.tokens[·]?) = n.tokens.map some
  above : ∀ i p, t.places[i]? = some p → Numbers t (a.ancestors i) p.above
  around : ∀ k leaf, (leaves t t)[k]? = some leaf →
    ∃ i, a.holder? k = some i ∧ t.nodes[i]? = some leaf.2
  all : a.descendants 0 = List.range a.nodes.size
  descendants : ∀ i, i < a.nodes.size →
    a.descendants i = (List.range a.nodes.size).filter fun j => i ∈ j :: a.ancestors j
  children : ∀ i c, c ∈ a.children i ↔ a.parent? c = some i
  ancestors : ∀ i, 0 < i → i < a.nodes.size →
    ∃ p, a.parent? i = some p ∧ p < i ∧ (a.ancestors i).getLast? = some 0
  holder : ∀ k i, .token k ∈ a.slots i ↔ a.holder? k = some i
  tokensBelow : ∀ i, i < a.nodes.size → a.tokensBelow i =
    (List.range a.tokens.size).filter fun k =>
      (a.holder? k).any fun r => r ∈ a.descendants i
  empty : ∀ i d, a.nodes[i]? = some d → (a.tokensBelow i = [] ↔ d.span.isEmpty = true)
  search : ∀ offset, t.tokenAt? offset = (a.tokenAt? offset).bind ((leaves t t)[·]?)
  found : ∀ offset k, a.tokenAt? offset = some k ↔
    ∃ d, a.tokens[k]? = some d ∧ d.token.span.contains offset = true
  beyond : ∀ offset, a.tokenAt? offset = none ↔ size ≤ offset

section
variable {a : Arena} {t : Tree} (h : Stores a t)

include h

theorem tree_stored {i : Nat} {n : Tree} (hn : t.nodes[i]? = some n) :
    i < a.nodes.size ∧ ∃ q k kind s cs, n = .node kind s cs ∧ Within a none 0 0 [t] q i k n := by
  have hi : i < a.nodes.size := by
    rw [h.nodeSize, nodeCount, nodesAll_one]
    exact (List.getElem?_eq_some_iff.mp hn).1
  obtain ⟨q, k, kind, s, cs, hx⟩ := stored_node h hi
  obtain ⟨before, after, hnodes, hb⟩ := hx.nodes
  obtain rfl : .node kind s cs = n := by
    rw [← nodesAll_one, hnodes, hb, Nat.zero_add, Tree.nodes] at hn
    simpa using hn
  exact ⟨hi, q, k, kind, s, cs, rfl, hx⟩

theorem stores_nodes : a.nodes.toList.map (fun d => (some d.kind, d.span)) =
    t.nodes.map fun n => (n.kind?, n.span) := by
  apply List.ext_getElem?
  intro i
  rw [List.getElem?_map, List.getElem?_map, Array.getElem?_toList]
  cases hn : t.nodes[i]? with
  | none =>
    have hsize := h.nodeSize
    rw [nodeCount, nodesAll_one] at hsize
    rw [Array.getElem?_eq_none (hsize ▸ List.getElem?_eq_none_iff.mp hn)]
    rfl
  | some n =>
    obtain ⟨-, q, k, kind, s, cs, rfl, hx⟩ := tree_stored h hn
    cases hx.held with
    | node stored _ _ =>
      rw [stored]
      rfl

theorem stores_tokens : a.tokens.toList.map (·.token) = t.tokens := by
  apply List.ext_getElem?
  intro k
  rw [List.getElem?_map, Array.getElem?_toList, stored_token h]

theorem stores_subtree {i : Nat} {n : Tree} (hn : t.nodes[i]? = some n) :
    Numbers t (a.descendants i) n.nodes ∧ Numbers t (a.children i) n.children ∧
      (a.tokensBelow i).map (t.tokens[·]?) = n.tokens.map some := by
  obtain ⟨-, q, k, kind, s, cs, rfl, hx⟩ := tree_stored h hn
  obtain ⟨-, hslots, -, hrun, htokens⟩ := held_node hx.held
  obtain ⟨before, after, hnodes, hb⟩ := hx.nodes
  obtain ⟨before', after', htoks, hk⟩ := hx.tokens
  rw [nodesAll_one] at hnodes
  rw [tokensAll_one] at htoks
  rw [Nat.zero_add] at hb hk
  refine ⟨?_, ?_, ?_⟩
  · have hnames := range_numbers hnodes
    rw [← hb] at hnames
    rw [Numbers, hrun, ← hnames, Tree.nodes, List.length_cons, Nat.add_comm 1]
    rfl
  · have hl : StandsAt t i (.node kind s cs :: []) :=
      ⟨before, after, by simp [nodesAll, hnodes], hb⟩
    obtain ⟨-, hinside, -⟩ := node_stands hl
    rw [Arena.children, hslots]
    exact ids_numbered hinside
  · rw [htokens, hk]
    exact range_numbers htoks

theorem stores_above (i : Nat) (p : Place) (hp : t.places[i]? = some p) :
    Numbers t (a.ancestors i) p.above := by
  have hplaces : placesUnderAll [] [t] = t.places := List.append_nil _
  have hnone : Numbers t (lineage a none) [] := rfl
  have hplace := places_row h.row (root_stands t) hnone i p (by rwa [hplaces])
  rw [Nat.zero_add] at hplace
  exact hplace.2

theorem stores_around (k : Nat) (leaf : Token × Tree) (hleaf : (leaves t t)[k]? = some leaf) :
    ∃ i, a.holder? k = some i ∧ t.nodes[i]? = some leaf.2 := by
  have hleaves : leavesAll t [t] = leaves t t := List.append_nil _
  have hnone : ∀ q, (none : Option Nat) = some q → t.nodes[q]? = some t := by simp
  obtain ⟨r, hr, hget⟩ := leaves_row h.row (root_stands t) hnone k leaf (by rwa [hleaves])
  rw [Nat.zero_add] at hr
  exact ⟨r, by rw [holder?, hr]; rfl, hget⟩

theorem stores_search (tiled : Tiled 0 t.tokens) (offset : Nat) :
    t.tokenAt? offset = (a.tokenAt? offset).bind ((leaves t t)[·]?) := by
  have htokens (i : Nat) : (leaves t t)[i]?.map (·.1) = t.tokens[i]? := by
    have hall : (leaves t t).map (·.1) = t.tokens := by
      have hrow := leaves_tokens t [t]
      rwa [leavesAll, leavesAll, List.append_nil, tokensAll, tokensAll, List.append_nil] at hrow
    rw [← List.getElem?_map, hall]
  rw [Tree.tokenAt?]
  by_cases hlt : offset < byteSize (spelled t.tokens)
  · obtain ⟨k, u, hat, hu, hin, hone⟩ := token_found h tiled hlt
    rw [← htokens] at hu
    obtain ⟨leaf, hleaf, rfl⟩ := Option.map_eq_some_iff.mp hu
    obtain ⟨hk, hget⟩ := List.getElem?_eq_some_iff.mp hleaf
    rw [hat, Option.bind_some, hleaf, List.find?_eq_some_iff_getElem]
    refine ⟨hin, k, hk, hget, fun i hi => ?_⟩
    rw [Bool.not_eq_true', Bool.eq_false_iff]
    intro hcontains
    have hi' := hone i _ (by rw [← htokens, List.getElem?_eq_getElem (hi.trans hk)]; rfl) hcontains
    omega
  · rw [token_beyond h tiled (Nat.le_of_not_lt hlt), Option.bind_none, List.find?_eq_none]
    intro leaf hleaf hcontains
    obtain ⟨i, hi⟩ := List.mem_iff_getElem?.mp hleaf
    have hget : t.tokens[i]? = some leaf.1 := by rw [← htokens, hi]; rfl
    have hend := tiled_end tiled (List.mem_of_getElem? hget)
    have hcontains := (span_contains.mp hcontains).2
    omega

theorem descendants_root : a.descendants 0 = List.range a.nodes.size := by
  have hsize := h.nodeSize
  cases t with
  | token => cases h.row
  | node kind s cs =>
    obtain ⟨-, -, -, hrun, -⟩ := held_node h.row
    rw [hrun, hsize, nodeCount_node, nodeCount_nil, Nat.add_zero, List.range_eq_range']

theorem tokens_empty (placed : Placed 0 [t]) (tiled : Tiled 0 t.tokens) {i : Nat} {d : NodeData}
    (hd : a.nodes[i]? = some d) : a.tokensBelow i = [] ↔ d.span.isEmpty = true := by
  obtain ⟨q, k, kind, s, cs, hx⟩ := stored_node h (Array.getElem?_eq_some_iff.mp hd).1
  obtain ⟨-, -, -, -, htokens⟩ := held_node hx.held
  obtain ⟨before, after, hnodes, -⟩ := hx.nodes
  obtain ⟨before', after', htoks, -⟩ := hx.tokens
  obtain ⟨-, -, -, -, hplaced⟩ := placed_within placed (.node kind s cs) (by
    rw [hnodes, Tree.nodes]
    simp)
  have hstop := placed_stop ((placed_node _ _ _ _ _).mp hplaced).2.1
  obtain rfl : d = ⟨kind, ⟨s, stopAll s cs⟩, q, slotsFrom (i + 1) k cs⟩ := by
    cases hx.held with
    | node stored _ _ => exact Option.some.inj (hd.symm.trans stored)
  rw [htokens, List.range'_eq_nil_iff, Span.isEmpty, beq_iff_eq, hstop, tokenCount,
    List.length_eq_zero_iff]
  constructor
  · intro hnone
    rw [hnone]
    rfl
  · intro hwidth
    cases hcs : tokensAll cs with
    | nil => rfl
    | cons u us =>
      have hwide : u.start < u.stop := by
        apply tiled_widths tiled
        rw [← tokensAll_one, htoks, Tree.tokens, hcs]
        simp
      rw [hcs, spelled_cons, byteSize_append] at hwidth
      rw [Token.stop] at hwide
      dsimp only at hwidth
      omega

end

theorem parse_stored (text : String) : Stores (parse text).tree.arena (parse text).tree := by
  obtain ⟨hplaced, -, -⟩ := Lossless.document_placed text
  obtain ⟨hrow, hnodes, htokens⟩ := arena_stores hplaced
  exact ⟨hrow, hnodes, htokens⟩

theorem parse_navigable (text : String) :
    Navigable (parse text).tree.arena (parse text).tree text.utf8ByteSize := by
  have h := parse_stored text
  obtain ⟨hplaced, htokens, -⟩ := Lossless.root_placed text
  have hall : (parse text).tree.tokens = (tokenize text).1 := by
    rw [← htokens]
    exact (List.append_nil _).symm
  obtain ⟨htiled, hsize⟩ := tokenize_covers text
  rw [← hall] at htiled hsize
  rw [Nat.zero_add] at hsize
  constructor
  · exact stores_nodes h
  · exact stores_tokens h
  · exact fun i n => stores_subtree h
  · exact stores_above h
  · exact stores_around h
  · exact descendants_root h
  · exact fun i => descendants_filter h
  · exact fun i c => mem_children h
  · exact fun i => ancestors_root h
  · exact fun k i => mem_slots h
  · exact fun i => tokensBelow_filter h
  · exact fun i d => tokens_empty h hplaced htiled
  · exact stores_search h htiled
  · exact fun offset k => tokenAt_some h htiled
  · intro offset
    rw [tokenAt_none h htiled, hsize]

end DiagramText.Navigation
