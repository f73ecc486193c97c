import DiagramText.Tree.Arena
import DiagramText.Proofs.Layout

/-!
# Arenas hold their trees

A row of trees has its place in an arena: its nodes and tokens have numbers
that follow each other, every node is stored with its span, its parent and the
numbers of its children, and every token with its holder. The builder adds a
placed row behind what is stored already and changes nothing else but the
children of the open node.
-/

set_option autoImplicit false

namespace DiagramText.Numbering
open Arena DiagramText.Tree Layout

def nodeCount (xs : List Tree) : Nat := (nodesAll xs).length

def tokenCount (xs : List Tree) : Nat := (tokensAll xs).length

section
variable (t : Token) (kind : NodeKind) (s : Nat) (cs xs ys : List Tree)

@[simp]
theorem nodeCount_nil : nodeCount [] = 0 := rfl

@[simp]
theorem tokenCount_nil : tokenCount [] = 0 := rfl

@[simp]
theorem nodeCount_token : nodeCount (.token t :: xs) = nodeCount xs := rfl

@[simp]
theorem tokenCount_token : tokenCount (.token t :: xs) = 1 + tokenCount xs := by
  simp [tokenCount, tokensAll, Tree.tokens, Nat.add_comm]

@[simp]
theorem nodeCount_node :
    nodeCount (.node kind s cs :: xs) = 1 + nodeCount cs + nodeCount xs := by
  simp [nodeCount, nodesAll, Tree.nodes, Nat.add_comm, Nat.add_assoc]

@[simp]
theorem tokenCount_node :
    tokenCount (.node kind s cs :: xs) = tokenCount cs + tokenCount xs := by
  simp [tokenCount, tokensAll, Tree.tokens]

@[simp]
theorem nodeCount_append : nodeCount (xs ++ ys) = nodeCount xs + nodeCount ys := by
  simp [nodeCount]

@[simp]
theorem tokenCount_append : tokenCount (xs ++ ys) = tokenCount xs + tokenCount ys := by
  simp [tokenCount]

end

/-- The children that a row of trees makes, its nodes counted from `n` and its tokens from `k`. -/
def slotsFrom : Nat → Nat → List Tree → List Slot
  | _, _, [] => []
  | n, k, .token _ :: xs => .token k :: slotsFrom n (k + 1) xs
  | n, k, .node _ _ cs :: xs =>
    .node n :: slotsFrom (n + 1 + nodeCount cs) (k + tokenCount cs) xs

theorem slots_append (n k : Nat) (xs ys : List Tree) :
    slotsFrom n k (xs ++ ys) =
      slotsFrom n k xs ++ slotsFrom (n + nodeCount xs) (k + tokenCount xs) ys := by
  induction xs generalizing n k with
  | nil => rfl
  | cons x xs ih =>
    cases x with
    | token t => simp [slotsFrom, ih, Nat.add_assoc]
    | node kind s cs => simp [slotsFrom, ih, Nat.add_assoc]

/-- The arena stores the row below this parent, its nodes from `n` on and its tokens from `k`. -/
inductive StoresRow (a : Arena) : Option Nat → Nat → Nat → List Tree → Prop where
  | nil (p : Option Nat) (n k : Nat) : StoresRow a p n k []
  | token {p n k : Nat} {t : Token} {xs : List Tree} (stored : a.tokens[k]? = some ⟨t, p⟩)
      (rest : StoresRow a (some p) n (k + 1) xs) : StoresRow a (some p) n k (.token t :: xs)
  | node {p : Option Nat} {n k : Nat} {kind : NodeKind} {s : Nat} {cs xs : List Tree}
      (stored : a.nodes[n]? = some ⟨kind, ⟨s, stopAll s cs⟩, p, slotsFrom (n + 1) k cs⟩)
      (inside : StoresRow a (some n) (n + 1) k cs)
      (rest : StoresRow a p (n + 1 + nodeCount cs) (k + tokenCount cs) xs) :
      StoresRow a p n k (.node kind s cs :: xs)

section
variable {a a' : Arena} {p : Option Nat} {n k : Nat} {xs ys : List Tree}

theorem stores_frame (h : StoresRow a p n k xs)
    (nodes : ∀ i, n ≤ i → i < n + nodeCount xs → a'.nodes[i]? = a.nodes[i]?)
    (tokens : ∀ j, k ≤ j → j < k + tokenCount xs → a'.tokens[j]? = a.tokens[j]?) :
    StoresRow a' p n k xs := by
  induction h with
  | nil p n k => exact .nil p n k
  | token stored _ ih =>
    simp only [nodeCount_token, tokenCount_token] at nodes tokens
    refine .token ?_ (ih nodes fun j hj hlt => tokens j (by omega) (by omega))
    rw [tokens _ (Nat.le_refl _) (by omega), stored]
  | node stored _ _ ihc ih =>
    simp only [nodeCount_node, tokenCount_node] at nodes tokens
    refine .node ?_ (ihc (fun i hi hlt => nodes i (by omega) (by omega))
        fun j hj hlt => tokens j (by omega) (by omega))
      (ih (fun i hi hlt => nodes i (by omega) (by omega))
        fun j hj hlt => tokens j (by omega) (by omega))
    rw [nodes _ (Nat.le_refl _) (by omega), stored]

theorem stores_append (hx : StoresRow a p n k xs)
    (hy : StoresRow a p (n + nodeCount xs) (k + tokenCount xs) ys) :
    StoresRow a p n k (xs ++ ys) := by
  induction hx with
  | nil => exact hy
  | token stored _ ih =>
    simp only [nodeCount_token, tokenCount_token, ← Nat.add_assoc] at hy
    exact .token stored (ih hy)
  | node stored inside _ _ ih =>
    simp only [nodeCount_node, tokenCount_node, ← Nat.add_assoc] at hy
    exact .node stored inside (ih hy)

theorem slot_spans (h : StoresRow a p n k xs) :
    (slotsFrom n k xs).map a.slotSpan = xs.map Tree.span := by
  induction h with
  | nil => rfl
  | token stored _ ih =>
    rw [slotsFrom, List.map_cons, ih]
    simp only [slotSpan, tokenSpan, stored]
    rfl
  | node stored _ _ _ ih =>
    rw [slotsFrom, List.map_cons, ih]
    simp only [slotSpan, stored]
    rfl

theorem closed_span {s : Nat} (h : StoresRow a p n k xs) (hp : Placed s xs) (kind : NodeKind)
    (q : Option Nat) :
    a.closedSpan ⟨kind, .empty s, q, slotsFrom n k xs⟩ = ⟨s, stopAll s xs⟩ := by
  have hspans := slot_spans h
  have hhead := congrArg List.head? hspans
  have hlast := congrArg List.getLast? hspans
  rw [List.head?_map, List.head?_map] at hhead
  rw [List.getLast?_map, List.getLast?_map] at hlast
  cases xs with
  | nil => rfl
  | cons x xs =>
    obtain ⟨y, hy⟩ := Option.isSome_iff_exists.mp
      (List.getLast?_isSome.mpr (List.cons_ne_nil x xs))
    rw [hy] at hlast
    obtain ⟨first, hfirst, hstart⟩ := Option.map_eq_some_iff.mp hhead
    obtain ⟨last, hl, hstop⟩ := Option.map_eq_some_iff.mp hlast
    rw [closedSpan]
    simp only [hfirst, hl, hstart, hstop, stopAll_last hy]
    exact congrArg (Span.mk · y.stop) (placed_start hp).1

end

/-- What the builder has done when a row is added to the open node. -/
structure Adds (b b' : Builder) (xs : List Tree) : Prop where
  current : b'.current = b.current
  outer : b'.outer = b.outer
  cursor : b'.cursor = stopAll b.cursor xs
  nodeSize : b'.nodes.size = b.nodes.size + nodeCount xs
  tokenSize : b'.tokens.size = b.tokens.size + tokenCount xs
  others : ∀ i, i < b.nodes.size → i ≠ b.current → b'.nodes[i]? = b.nodes[i]?
  opened : b'.nodes[b.current]? = b.nodes[b.current]?.map fun d =>
    { d with slots := d.slots ++ slotsFrom b.nodes.size b.tokens.size xs }
  tokens : ∀ j, j < b.tokens.size → b'.tokens[j]? = b.tokens[j]?
  row : StoresRow b'.toArena (some b.current) b.nodes.size b.tokens.size xs

theorem adds_nil (b : Builder) : Adds b b [] where
  current := rfl
  outer := rfl
  cursor := rfl
  nodeSize := rfl
  tokenSize := rfl
  others _ _ _ := rfl
  opened := by simp [slotsFrom]
  tokens _ _ := rfl
  row := .nil _ _ _

theorem adds_append {b b' b'' : Builder} {xs ys : List Tree} (hx : Adds b b' xs)
    (hy : Adds b' b'' ys) : Adds b b'' (xs ++ ys) where
  current := hy.current.trans hx.current
  outer := hy.outer.trans hx.outer
  cursor := by rw [hy.cursor, hx.cursor, stopAll_append]
  nodeSize := by rw [hy.nodeSize, hx.nodeSize, nodeCount_append, Nat.add_assoc]
  tokenSize := by rw [hy.tokenSize, hx.tokenSize, tokenCount_append, Nat.add_assoc]
  others i hi hne := by
    rw [hy.others i (by rw [hx.nodeSize]; omega) (by rwa [hx.current]), hx.others i hi hne]
  opened := by
    have hopen := hy.opened
    rw [hx.current, hx.opened, hx.nodeSize, hx.tokenSize, Option.map_map] at hopen
    rw [hopen, slots_append]
    simp [Function.comp_def]
  tokens j hj := by rw [hy.tokens j (by rw [hx.tokenSize]; omega), hx.tokens j hj]
  row := by
    have hlt := b.opened _ List.mem_cons_self
    refine stores_append (stores_frame hx.row ?_ ?_) ?_
    · intro i hi hlt'
      exact hy.others i (by rw [hx.nodeSize]; omega) (by rw [hx.current]; omega)
    · intro j hj hlt'
      exact hy.tokens j (by rw [hx.tokenSize]; omega)
    · have hrow := hy.row
      rwa [hx.current, hx.nodeSize, hx.tokenSize] at hrow

theorem adds_token (t : Token) (b : Builder) : Adds b (b.token t) [.token t] where
  current := rfl
  outer := rfl
  cursor := rfl
  nodeSize := Array.size_modify
  tokenSize := Array.size_push _
  others i _ hne := by rw [Builder.token, Array.getElem?_modify, if_neg hne.symm]
  opened := by
    rw [Builder.token, Array.getElem?_modify, if_pos rfl]
    rfl
  tokens j hj := by rw [Builder.token, Array.getElem?_push, if_neg (by omega)]
  row := .token (by rw [Builder.token, Array.getElem?_push, if_pos rfl]) (.nil _ _ _)

theorem adds_node {b b' : Builder} {kind : NodeKind} {cs : List Tree} (hp : Placed b.cursor cs)
    (h : Adds (b.start kind) b' cs) : Adds b b'.finish [.node kind b.cursor cs] := by
  have hlt := b.opened _ List.mem_cons_self
  have hsize := b.start_size kind
  have hcurrent : b'.current = b.nodes.size := h.current
  have hrow : StoresRow b'.toArena (some b.nodes.size) (b.nodes.size + 1) b.tokens.size cs := by
    have hrow := h.row
    rwa [hsize] at hrow
  have hnode : b'.nodes[b'.current]? = some ⟨kind, .empty b.cursor, some b.current,
      slotsFrom (b.nodes.size + 1) b.tokens.size cs⟩ := by
    have hopen := h.opened
    rw [hsize] at hopen
    rw [hcurrent]
    exact hopen.trans (congrArg (Option.map _) (b.start_new kind))
  have hbefore {i : Nat} (hi : i < b.nodes.size) :
      b'.finish.nodes[i]? = (b.start kind).nodes[i]? := by
    rw [b'.finish_other (by omega), h.others i (by omega) (Nat.ne_of_lt hi)]
  constructor
  · exact congrArg (List.headD · b'.current) h.outer
  · exact congrArg List.tail h.outer
  · exact h.cursor
  · rw [Builder.finish, Array.size_modify, h.nodeSize, hsize]
    simp [Nat.add_assoc]
  · rw [Builder.finish, h.tokenSize]
    simp [Builder.start]
  · intro i hi hne
    rw [hbefore hi, b.start_other kind hi hne]
  · rw [hbefore hlt, b.start_open]
    rfl
  · exact h.tokens
  · refine .node ?_ (stores_frame hrow ?_ fun _ _ _ => rfl) (.nil _ _ _)
    · rw [← hcurrent, b'.finish_current, hnode, Option.map_some, closed_span hrow hp, hcurrent]
    · exact fun i hi _ => b'.finish_other (by omega)

theorem addAll_adds {b : Builder} {xs : List Tree} (h : Placed b.cursor xs) :
    Adds b (b.addAll xs) xs := by
  induction xs using forest_induction generalizing b with
  | nil =>
    rw [Builder.addAll]
    exact adds_nil b
  | token t xs ih =>
    obtain ⟨-, hp⟩ := (placed_token _ t xs).mp h
    rw [Builder.addAll]
    exact adds_append (adds_token t b) (ih hp)
  | node k s cs xs ihc ih =>
    obtain ⟨rfl, hc, hp⟩ := (placed_node _ k s cs xs).mp h
    have hnode := adds_node hc (ihc (b := b.start k) hc)
    rw [Builder.addAll]
    exact adds_append hnode (ih (by rw [hnode.cursor]; exact hp))

theorem arena_stores {xs : List Tree} (h : Placed 0 xs) :
    StoresRow (Tree.node .document 0 xs).arena none 0 0 [.node .document 0 xs] ∧
      (Tree.node .document 0 xs).arena.nodes.size = nodeCount [.node .document 0 xs] ∧
      (Tree.node .document 0 xs).arena.tokens.size = tokenCount [.node .document 0 xs] := by
  have hadds := addAll_adds (b := .new) h
  have hcurrent : (Builder.addAll xs .new).current = 0 := hadds.current
  have hopen : (Builder.addAll xs .new).nodes[(Builder.addAll xs .new).current]? =
      some ⟨.document, .empty 0, none, slotsFrom 1 0 xs⟩ := by
    rw [hcurrent]
    exact hadds.opened
  have harena : (Tree.node .document 0 xs).arena = (Builder.addAll xs .new).finish.toArena := rfl
  have hrow : StoresRow (Builder.addAll xs .new).toArena (some 0) 1 0 xs := hadds.row
  rw [harena]
  refine ⟨.node ?_ (stores_frame hrow ?_ fun _ _ _ => rfl) (.nil _ _ _), ?_, ?_⟩
  · rw [← hcurrent, Builder.finish_current, hopen, Option.map_some, closed_span hrow h, hcurrent]
  · exact fun i hi _ => Builder.finish_other _ (by omega)
  · rw [Builder.finish, Array.size_modify, hadds.nodeSize]
    simp [Builder.new]
  · rw [Builder.finish, hadds.tokenSize]
    simp [Builder.new]

end DiagramText.Numbering
