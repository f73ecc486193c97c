import DiagramText.Proofs.Derivation
import DiagramText.Proofs.Scanning

/-!
# The layout of trees

A row of trees is placed at an offset when its tokens follow each other from
there and every node opens where the tokens before it end. Derivations place
their trees, whatever they recover from. In a placed row each node covers a
run of the tokens, and its span follows from the bytes in front of it.
-/

set_option autoImplicit false

namespace DiagramText.Layout
open Text Scanning DiagramText.Derivation DiagramText.Tree

/-- Induction over rows of trees, with the children of a node as a row of their own. -/
@[elab_as_elim]
theorem forest_induction {motive : List Tree → Prop} (nil : motive [])
    (token : ∀ t xs, motive xs → motive (.token t :: xs))
    (node : ∀ k s cs xs, motive cs → motive xs → motive (.node k s cs :: xs)) :
    ∀ xs, motive xs
  | [] => nil
  | .token t :: xs => token t xs (forest_induction nil token node xs)
  | .node k s cs :: xs =>
    node k s cs xs (forest_induction nil token node cs) (forest_induction nil token node xs)

/-- The row starts at the offset, and each of its trees where the one before it ends. -/
def Placed : Nat → List Tree → Prop
  | _, [] => True
  | offset, .token t :: xs => t.start = offset ∧ Placed t.stop xs
  | offset, .node _ s cs :: xs => s = offset ∧ Placed s cs ∧ Placed (stopAll s cs) xs

@[simp]
theorem placed_nil (offset : Nat) : Placed offset [] := by simp [Placed]

@[simp]
theorem placed_token (offset : Nat) (t : Token) (xs : List Tree) :
    Placed offset (.token t :: xs) ↔ t.start = offset ∧ Placed t.stop xs := by
  simp [Placed]

@[simp]
theorem placed_node (offset : Nat) (k : NodeKind) (s : Nat) (cs xs : List Tree) :
    Placed offset (.node k s cs :: xs) ↔
      s = offset ∧ Placed s cs ∧ Placed (stopAll s cs) xs := by
  simp [Placed]

theorem placed_append {offset : Nat} {xs ys : List Tree} (hx : Placed offset xs)
    (hy : Placed (stopAll offset xs) ys) : Placed offset (xs ++ ys) := by
  induction xs generalizing offset with
  | nil => exact hy
  | cons x xs ih =>
    cases x with
    | token t =>
      rw [List.cons_append, placed_token]
      rw [placed_token] at hx
      exact ⟨hx.1, ih hx.2 hy⟩
    | node k s cs =>
      rw [List.cons_append, placed_node]
      rw [placed_node] at hx
      exact ⟨hx.1, hx.2.1, ih hx.2.2 hy⟩

theorem offset_covers {offset size : Nat} {ts : List Token} (h : Covers offset ts size) :
    offsetAt size ts = offset := by
  cases ts with
  | nil => exact h.2.symm
  | cons t ts => exact (covers_cons.mp h).1

theorem tokens_placed {offset size : Nat} {us ts : List Token}
    (h : Covers offset (us ++ ts) size) :
    Placed offset (us.map .token) ∧ Covers (stopAll offset (us.map .token)) ts size := by
  induction us generalizing offset with
  | nil => exact ⟨placed_nil offset, h⟩
  | cons u us ih =>
    obtain ⟨hstart, -, hrest⟩ := covers_cons.mp h
    obtain ⟨hp, hc⟩ := ih hrest
    exact ⟨(placed_token offset u _).mpr ⟨hstart, hp⟩, hc⟩

theorem node_placed {offset size s : Nat} {kind : NodeKind} {xs : List Tree} {us : List Token}
    (hs : s = offset) (h : Placed offset xs ∧ Covers (stopAll offset xs) us size) :
    Placed offset [.node kind s xs] ∧ Covers (stopAll offset [.node kind s xs]) us size := by
  subst hs
  exact ⟨(placed_node s kind s xs []).mpr ⟨rfl, h.1, placed_nil _⟩, h.2⟩

theorem token_first {offset size : Nat} {t : Token} {ts us : List Token} {xs : List Tree}
    (h : Covers offset (t :: ts) size)
    (hxs : ∀ o, Covers o ts size → Placed o xs ∧ Covers (stopAll o xs) us size) :
    Placed offset (.token t :: xs) ∧ Covers (stopAll offset (.token t :: xs)) us size := by
  obtain ⟨hstart, -, hrest⟩ := covers_cons.mp h
  obtain ⟨hp, hc⟩ := hxs t.stop hrest
  exact ⟨(placed_token offset t xs).mpr ⟨hstart, hp⟩, hc⟩

theorem row_append {offset size : Nat} {us vs : List Token} {xs ys : List Tree}
    (hx : Placed offset xs ∧ Covers (stopAll offset xs) us size)
    (hy : ∀ o, Covers o us size → Placed o ys ∧ Covers (stopAll o ys) vs size) :
    Placed offset (xs ++ ys) ∧ Covers (stopAll offset (xs ++ ys)) vs size := by
  obtain ⟨hp, hc⟩ := hy _ hx.2
  exact ⟨placed_append hx.1 hp, by rwa [stopAll_append]⟩

theorem derives_placed {size : Nat} {ts us : List Token} {xs : List Tree} {ds : List Diagnostic}
    (h : Derives size ts xs ds us) :
    ∀ o, Covers o ts size → Placed o xs ∧ Covers (stopAll o xs) us size := by
  induction h with
  | nil => exact fun o ho => ⟨placed_nil o, ho⟩
  | append _ _ ih ih' => exact fun o ho => row_append (ih o ho) ih'
  | token t ts => exact fun o ho => token_first ho fun o' ho' => ⟨placed_nil o', ho'⟩
  | leaf _ t us ts | silent t us ts | rejected t us ts =>
    exact fun o ho => node_placed (covers_cons.mp ho).1 (tokens_placed ho)
  | missing ts => exact fun o ho => node_placed (offset_covers ho) ⟨placed_nil o, ho⟩
  | deepValue t us ts =>
    intro o ho
    have hs := (covers_cons.mp ho).1
    exact node_placed hs (node_placed hs (tokens_placed ho))
  | arrayValue _ _ _ ih | definition _ _ _ ih =>
    exact fun o ho => node_placed (offset_covers ho) (ih o ho)
  | closedArray _ _ _ _ ih | closedBlock _ _ _ _ _ ih =>
    intro o ho
    refine node_placed (covers_cons.mp ho).1 (token_first ho fun o' ho' => ?_)
    exact row_append (ih o' ho') fun o'' h'' => token_first h'' fun e he => ⟨placed_nil e, he⟩
  | openArray _ _ _ ih | openBlock _ _ _ _ ih =>
    exact fun o ho => node_placed (covers_cons.mp ho).1 (token_first ho ih)
  | connection _ _ _ _ _ _ _ _ _ ih ih' ih'' =>
    intro o ho
    apply node_placed (offset_covers ho)
    exact row_append (ih o ho) fun o' ho' => row_append (ih' o' ho') ih''

theorem outermost_placed {size : Nat} {ts us : List Token} {xs : List Tree}
    {ds : List Diagnostic} (h : Outermost size ts xs ds us) :
    ∀ o, Covers o ts size → Placed o xs ∧ Covers (stopAll o xs) us size := by
  induction h with
  | piece derives => exact derives_placed derives
  | append _ _ ih ih' => exact fun o ho => row_append (ih o ho) ih'
  | stray t ts =>
    intro o ho
    apply node_placed (covers_cons.mp ho).1
    exact token_first ho fun e he => ⟨placed_nil e, he⟩
  | anonymous _ block => exact derives_placed block

theorem mem_nodes_node {xs : List Tree} :
    ∀ n ∈ nodesAll xs, ∃ k s cs, n = .node k s cs := by
  induction xs using forest_induction with
  | nil => simp [nodesAll]
  | token t xs ih => exact ih
  | node k s cs xs ihc ih =>
    intro n hn
    rcases List.mem_append.mp hn with hn | hn
    · rcases List.mem_cons.mp hn with rfl | hn
      · exact ⟨k, s, cs, rfl⟩
      · exact ihc n hn
    · exact ih n hn

theorem mem_nodesAll {n x : Tree} {xs : List Tree} (hx : x ∈ xs) (hn : n ∈ x.nodes) :
    n ∈ nodesAll xs := by
  obtain ⟨before, after, rfl⟩ := List.append_of_mem hx
  simp [nodesAll, hn]

theorem node_self {t : Tree} {k : NodeKind} (h : t.kind? = some k) : t ∈ t.nodes := by
  obtain ⟨s, cs, rfl⟩ := node_of_kind h
  exact List.mem_cons_self

theorem nodes_element {t x n : Tree} (hx : x ∈ t.elements) (hn : n ∈ x.nodes) : n ∈ t.nodes := by
  cases t with
  | token => simp [elements] at hx
  | node k s cs => exact List.mem_cons_of_mem _ (mem_nodesAll hx hn)

theorem nodes_below {k : NodeKind} {s : Nat} {cs xs : List Tree} {n : Tree}
    (hc : .node k s cs ∈ nodesAll xs) (hn : n ∈ nodesAll cs) : n ∈ nodesAll xs := by
  induction xs using forest_induction with
  | nil => simp [nodesAll] at hc
  | token t xs ih => exact ih hc
  | node k' s' cs' xs ihc ih =>
    rcases List.mem_append.mp hc with hc | hc
    · apply List.mem_append_left
      rcases List.mem_cons.mp hc with heq | hc
      · obtain ⟨-, -, rfl⟩ := Tree.node.inj heq
        exact List.mem_cons_of_mem _ hn
      · exact List.mem_cons_of_mem _ (ihc hc)
    · exact List.mem_append_right _ (ih hc)

theorem element_node {t n x : Tree} {k : NodeKind} (hn : n ∈ t.nodes) (hx : x ∈ n.elements)
    (hk : x.kind? = some k) : x ∈ t.nodes := by
  cases t with
  | token => simp [nodes] at hn
  | node k' s cs =>
    rcases List.mem_cons.mp hn with rfl | hn
    · exact nodes_element hx (node_self hk)
    · obtain ⟨k'', s', cs', rfl⟩ := mem_nodes_node n hn
      exact List.mem_cons_of_mem _ (nodes_below hn (mem_nodesAll hx (node_self hk)))

theorem placed_stop {offset : Nat} {xs : List Tree} (h : Placed offset xs) :
    stopAll offset xs = offset + byteSize (spelled (tokensAll xs)) := by
  induction xs using forest_induction generalizing offset with
  | nil => rfl
  | token t xs ih =>
    obtain ⟨rfl, hp⟩ := (placed_token offset t xs).mp h
    rw [stopAll, Tree.stop, ih hp, tokensAll, tokens, List.singleton_append, spelled_cons,
      byteSize_append, Token.stop, Nat.add_assoc]
  | node k s cs xs ihc ih =>
    obtain ⟨rfl, hc, hp⟩ := (placed_node offset k s cs xs).mp h
    rw [stopAll, Tree.stop, ih hp, ihc hc, tokensAll, tokens, spelled_append, byteSize_append,
      Nat.add_assoc]

theorem placed_within {offset : Nat} {xs : List Tree} (h : Placed offset xs) :
    ∀ n ∈ nodesAll xs, ∃ before after, tokensAll xs = before ++ n.tokens ++ after ∧
      n.start = offset + byteSize (spelled before) ∧ Placed n.start [n] := by
  induction xs using forest_induction generalizing offset with
  | nil => simp [nodesAll]
  | token t xs ih =>
    obtain ⟨rfl, hp⟩ := (placed_token offset t xs).mp h
    intro n hn
    obtain ⟨before, after, htok, hstart, hn'⟩ := ih hp n hn
    refine ⟨t :: before, after, by rw [tokensAll, htok]; rfl, ?_, hn'⟩
    rw [hstart, spelled_cons, byteSize_append, Token.stop, Nat.add_assoc]
  | node k s cs xs ihc ih =>
    obtain ⟨rfl, hc, hp⟩ := (placed_node offset k s cs xs).mp h
    intro n hn
    rcases List.mem_append.mp hn with hn | hn
    · rcases List.mem_cons.mp hn with rfl | hn
      · exact ⟨[], tokensAll xs, rfl, rfl, (placed_node s k s cs []).mpr ⟨rfl, hc, placed_nil _⟩⟩
      · obtain ⟨before, after, htok, hstart, hn'⟩ := ihc hc n hn
        refine ⟨before, after ++ tokensAll xs, ?_, hstart, hn'⟩
        rw [tokensAll, tokens, htok, List.append_assoc _ after]
    · obtain ⟨before, after, htok, hstart, hn'⟩ := ih hp n hn
      refine ⟨tokensAll cs ++ before, after, ?_, ?_, hn'⟩
      · rw [tokensAll, tokens, htok]
        simp only [List.append_assoc]
      · rw [hstart, placed_stop hc, spelled_append, byteSize_append, Nat.add_assoc]

theorem stopAll_last {s : Nat} {xs : List Tree} {x : Tree} (h : xs.getLast? = some x) :
    stopAll s xs = x.stop := by
  obtain ⟨ys, rfl⟩ := List.getLast?_eq_some_iff.mp h
  rw [stopAll_append]
  rfl

theorem placed_start {offset : Nat} {x : Tree} {xs : List Tree} (h : Placed offset (x :: xs)) :
    x.start = offset ∧ Placed x.stop xs := by
  cases x with
  | token t => exact (placed_token offset t xs).mp h
  | node k s cs =>
    obtain ⟨hs, -, hp⟩ := (placed_node offset k s cs xs).mp h
    exact ⟨hs, hp⟩

theorem placed_chain {offset : Nat} {xs : List Tree} (h : Placed offset xs) :
    xs.IsChain (fun a b => a.stop = b.start) := by
  induction xs generalizing offset with
  | nil => exact .nil
  | cons x xs ih =>
    obtain ⟨-, hp⟩ := placed_start h
    cases xs with
    | nil => exact .singleton x
    | cons y ys => exact .cons_cons (placed_start hp).1.symm (ih hp)

/-- The rows have the same nodes, opened at the same offsets, over tokens that correspond. -/
inductive Matched (R : Token → Token → Prop) : List Tree → List Tree → Prop where
  | nil : Matched R [] []
  | token {t u : Token} {xs ys : List Tree} (tokens : R t u) (rest : Matched R xs ys) :
      Matched R (.token t :: xs) (.token u :: ys)
  | node {kind : NodeKind} {s : Nat} {cs ds xs ys : List Tree} (children : Matched R cs ds)
      (rest : Matched R xs ys) : Matched R (.node kind s cs :: xs) (.node kind s ds :: ys)

/-- The kind and the span of every node. -/
def nodeSpans (xs : List Tree) : List (Option NodeKind × Span) :=
  (nodesAll xs).map fun n => (n.kind?, n.span)

theorem nodeSpans_node (k : NodeKind) (s : Nat) (cs xs : List Tree) :
    nodeSpans (.node k s cs :: xs) =
      (some k, ⟨s, stopAll s cs⟩) :: nodeSpans cs ++ nodeSpans xs :=
  List.map_append

section

variable {R : Token → Token → Prop} {xs ys : List Tree}

theorem matched_stop (hR : ∀ t u, R t u → u.stop = t.stop) (h : Matched R xs ys) (s : Nat) :
    stopAll s ys = stopAll s xs := by
  induction h generalizing s with
  | nil => rfl
  | token tokens rest ih => rw [stopAll, stopAll, Tree.stop, Tree.stop, hR _ _ tokens, ih]
  | node children rest ihc ih => rw [stopAll, stopAll, Tree.stop, Tree.stop, ihc, ih]

theorem matched_spans (hR : ∀ t u, R t u → u.stop = t.stop) (h : Matched R xs ys) :
    nodeSpans ys = nodeSpans xs := by
  induction h with
  | nil => rfl
  | token tokens rest ih => exact ih
  | node children rest ihc ih =>
    rw [nodeSpans_node, nodeSpans_node, matched_stop hR children, ihc, ih]

end

end DiagramText.Layout
