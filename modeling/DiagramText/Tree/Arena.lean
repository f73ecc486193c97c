import DiagramText.Tree

/-!
# Numbered trees

An arena stores the nodes of a tree in one row, parents first, and its tokens
in another. A node lists its children by number and knows the number of its
parent; a token knows the node that holds it. A builder fills an arena while a
document is read: it starts nodes, adds tokens to the innermost open node and
finishes it, when its span becomes known.

Walks over an arena follow these numbers. They come to an end because a child
is stored behind its parent, in the order of the children.
-/

set_option autoImplicit false

namespace DiagramText

namespace Arena

/-- A child of a numbered node. -/
inductive Slot where
  | node (id : Nat)
  | token (id : Nat)
  deriving DecidableEq, Repr

namespace Slot

def node? : Slot → Option Nat
  | node i => some i
  | token _ => none

end Slot

structure NodeData where
  kind : NodeKind
  span : Span
  parent? : Option Nat
  slots : List Slot

structure TokenData where
  token : Token
  holder : Nat

/-- The numbers of the nodes among some children. -/
def nodeIds (slots : List Slot) : List Nat := slots.filterMap Slot.node?

theorem nodeIds_append (xs ys : List Slot) : nodeIds (xs ++ ys) = nodeIds xs ++ nodeIds ys :=
  List.filterMap_append

/-- A node with this number, in an arena of this size, stands between its parent and its
children. -/
structure Stored (size i : Nat) (n : NodeData) : Prop where
  parent_lt : ∀ p, n.parent? = some p → p < i
  children_lt : ∀ c ∈ nodeIds n.slots, i < c ∧ c < size
  ascending : (nodeIds n.slots).Pairwise (· < ·)

end Arena

structure Arena where
  nodes : Array Arena.NodeData
  tokens : Array Arena.TokenData
  stored : ∀ i n, nodes[i]? = some n → Arena.Stored nodes.size i n

namespace Arena

variable (a : Arena)

def slots (i : Nat) : List Slot := (a.nodes[i]?.map (·.slots)).getD []

def children (i : Nat) : List Nat := nodeIds (a.slots i)

def parent? (i : Nat) : Option Nat := a.nodes[i]?.bind (·.parent?)

def holder? (k : Nat) : Option Nat := a.tokens[k]?.map (·.holder)

theorem parent_lt {i p : Nat} (h : a.parent? i = some p) : p < i := by
  obtain ⟨n, hn, hp⟩ := Option.bind_eq_some_iff.mp h
  exact (a.stored i n hn).parent_lt p hp

theorem children_stored (i : Nat) :
    (∀ c ∈ a.children i, i < c ∧ c < a.nodes.size) ∧ (a.children i).Pairwise (· < ·) := by
  rw [children, slots]
  cases hn : a.nodes[i]? with
  | none => simp [nodeIds]
  | some n => exact ⟨(a.stored i n hn).children_lt, (a.stored i n hn).ascending⟩

def ancestors (i : Nat) : List Nat :=
  match _h : a.parent? i with
  | none => []
  | some p => p :: ancestors p
termination_by i
decreasing_by exact a.parent_lt _h

theorem ancestors_parent {i p : Nat} (h : a.parent? i = some p) :
    a.ancestors i = p :: a.ancestors p := by
  rw [ancestors]
  split <;> simp_all

theorem ancestors_none {i : Nat} (h : a.parent? i = none) : a.ancestors i = [] := by
  rw [ancestors]
  split <;> simp_all

def weight (size : Nat) : List Nat → Nat
  | [] => 0
  | i :: stack => Nat.pow 2 (size - i) + weight size stack

theorem weight_append (size : Nat) (xs ys : List Nat) :
    weight size (xs ++ ys) = weight size xs + weight size ys := by
  induction xs with
  | nil => exact (Nat.zero_add _).symm
  | cons x xs ih => rw [List.cons_append, weight, weight, ih, Nat.add_assoc]

theorem weight_behind {size i : Nat} {ids : List Nat} (ascend : ids.Pairwise (· < ·))
    (behind : ∀ c ∈ ids, i < c ∧ c < size) : weight size ids < Nat.pow 2 (size - i) := by
  induction ids generalizing i with
  | nil => exact Nat.two_pow_pos _
  | cons c cs ih =>
    obtain ⟨hc, hcs⟩ := List.pairwise_cons.mp ascend
    obtain ⟨hi, hsize⟩ := behind c List.mem_cons_self
    have hrest : weight size cs < Nat.pow 2 (size - c) :=
      ih hcs fun d hd => ⟨hc d hd, (behind d (List.mem_cons_of_mem c hd)).2⟩
    have hdouble : Nat.pow 2 (size - c + 1) ≤ Nat.pow 2 (size - i) :=
      Nat.pow_le_pow_right (by decide) (by omega)
    have hpower : Nat.pow 2 (size - c + 1) = Nat.pow 2 (size - c) * 2 := rfl
    rw [weight]
    omega

def visit : List Nat → List Nat
  | [] => []
  | i :: stack => i :: visit (a.children i ++ stack)
termination_by stack => weight a.nodes.size stack
decreasing_by
  have h := weight_behind (a.children_stored i).2 (a.children_stored i).1
  rw [weight_append, weight]
  omega

def descendants (i : Nat) : List Nat := a.visit [i]

def outerToken? (back : Bool) (i : Nat) : Option Nat :=
  (if back then (a.slots i).reverse else a.slots i).attach.findSome? fun s =>
    match s with
    | ⟨.token k, _⟩ => some k
    | ⟨.node c, _⟩ => outerToken? back c
termination_by a.nodes.size - i
decreasing_by
  next h =>
    have hc : c ∈ a.children i := by
      refine List.mem_filterMap.mpr ⟨.node c, ?_, rfl⟩
      cases back <;> simpa using h
    obtain ⟨hi, hsize⟩ := (a.children_stored i).1 c hc
    omega

def slotToken? (back : Bool) : Slot → Option Nat
  | .token k => some k
  | .node c => a.outerToken? back c

theorem outerToken_slots (back : Bool) (i : Nat) : a.outerToken? back i =
    (if back then (a.slots i).reverse else a.slots i).findSome? (a.slotToken? back) := by
  rw [outerToken?, List.findSome?_subtype (g := a.slotToken? back), List.unattach_attach]
  rintro (c | k) _ <;> rfl

def firstToken? (i : Nat) : Option Nat := a.outerToken? false i

def lastToken? (i : Nat) : Option Nat := a.outerToken? true i

def tokensBelow (i : Nat) : List Nat :=
  match a.firstToken? i, a.lastToken? i with
  | some first, some last => List.range' first (last + 1 - first)
  | _, _ => []

def partitionPoint (test : Nat → Bool) (low high : Nat) : Nat :=
  if low < high then
    if test ((low + high) / 2) then partitionPoint test ((low + high) / 2 + 1) high
    else partitionPoint test low ((low + high) / 2)
  else low
termination_by high - low

def tokenSpan (k : Nat) : Span := (a.tokens[k]?.map (·.token.span)).getD (.empty 0)

def tokenAt? (offset : Nat) : Option Nat :=
  let k := partitionPoint (fun k => (a.tokenSpan k).stop ≤ offset) 0 a.tokens.size
  if k < a.tokens.size ∧ (a.tokenSpan k).contains offset then some k else none

def slotSpan : Slot → Span
  | .node i => (a.nodes[i]?.map (·.span)).getD (.empty 0)
  | .token k => a.tokenSpan k

def closedSpan (n : NodeData) : Span :=
  match n.slots.head?, n.slots.getLast? with
  | some first, some last => ⟨(a.slotSpan first).start, (a.slotSpan last).stop⟩
  | _, _ => .empty n.span.start

def NodeData.add (s : Slot) (n : NodeData) : NodeData := { n with slots := n.slots ++ [s] }

theorem Stored.grow {size size' i : Nat} {n : NodeData} (h : Stored size i n)
    (le : size ≤ size') : Stored size' i n :=
  ⟨h.parent_lt, fun c hc => (h.children_lt c hc).imp_right (Nat.lt_of_lt_of_le · le), h.ascending⟩

theorem Stored.add_token {size i : Nat} {n : NodeData} (h : Stored size i n) (k : Nat) :
    Stored size i (n.add (.token k)) := by
  have hids : nodeIds (n.slots ++ [.token k]) = nodeIds n.slots := by
    rw [nodeIds_append]
    exact List.append_nil _
  exact ⟨h.parent_lt, by rw [NodeData.add, hids]; exact h.children_lt,
    by rw [NodeData.add, hids]; exact h.ascending⟩

theorem Stored.add_node {size i : Nat} {n : NodeData} (h : Stored size i n) (hi : i < size) :
    Stored (size + 1) i (n.add (.node size)) := by
  have hids : nodeIds (n.slots ++ [.node size]) = nodeIds n.slots ++ [size] := nodeIds_append _ _
  refine ⟨h.parent_lt, ?_, ?_⟩
  · intro c hc
    rw [NodeData.add, hids] at hc
    rcases List.mem_append.mp hc with hc | hc
    · obtain ⟨hlt, hsize⟩ := h.children_lt c hc
      exact ⟨hlt, by omega⟩
    · obtain rfl := List.mem_singleton.mp hc
      exact ⟨hi, Nat.lt_succ_self _⟩
  · rw [NodeData.add, hids, List.pairwise_append]
    refine ⟨h.ascending, List.pairwise_singleton _ _, ?_⟩
    intro c hc d hd
    rw [List.mem_singleton.mp hd]
    exact (h.children_lt c hc).2

theorem stored_modify {nodes : Array NodeData} {j : Nat} {f : NodeData → NodeData}
    {P : Nat → NodeData → Prop} (h : ∀ i n, nodes[i]? = some n → P i n)
    (hf : ∀ n, nodes[j]? = some n → P j (f n)) :
    ∀ i n, (nodes.modify j f)[i]? = some n → P i n := by
  intro i n hn
  rw [Array.getElem?_modify] at hn
  split at hn
  · next hij =>
    subst hij
    obtain ⟨m, hm, rfl⟩ := Option.map_eq_some_iff.mp hn
    exact hf m hm
  · exact h i n hn

/-- An arena with its open nodes, innermost first, and the offset behind the last token. -/
structure Builder extends Arena where
  current : Nat
  outer : List Nat
  cursor : Nat
  opened : ∀ i ∈ current :: outer, i < nodes.size

namespace Builder

/-- The document is open. -/
def new : Builder where
  nodes := #[⟨.document, .empty 0, none, []⟩]
  tokens := #[]
  current := 0
  outer := []
  cursor := 0
  stored := by
    intro i n hn
    cases i with
    | zero =>
      obtain rfl := Option.some.inj hn
      exact ⟨by simp, by simp [nodeIds], by simp [nodeIds]⟩
    | succ i => simp at hn
  opened := by simp

def start (kind : NodeKind) (b : Builder) : Builder where
  nodes := (b.nodes.modify b.current (.add (.node b.nodes.size))).push
    ⟨kind, .empty b.cursor, some b.current, []⟩
  tokens := b.tokens
  current := b.nodes.size
  outer := b.current :: b.outer
  cursor := b.cursor
  stored := by
    have hcurrent : b.current < b.nodes.size := b.opened _ List.mem_cons_self
    have hadd : ∀ i n, (b.nodes.modify b.current (.add (.node b.nodes.size)))[i]? = some n →
        Stored (b.nodes.size + 1) i n :=
      stored_modify (fun i n hn => (b.stored i n hn).grow (Nat.le_succ _))
        fun n hn => (b.stored _ n hn).add_node hcurrent
    intro i n hn
    rw [Array.size_push, Array.size_modify]
    rw [Array.getElem?_push] at hn
    split at hn
    · next hi =>
      rw [Array.size_modify] at hi
      obtain rfl := Option.some.inj hn
      exact ⟨fun p hp => by simp_all, by simp [nodeIds], by simp [nodeIds]⟩
    · exact hadd i n hn
  opened := by
    intro i hi
    rw [Array.size_push, Array.size_modify]
    rcases List.mem_cons.mp hi with rfl | hi
    · exact Nat.lt_succ_self _
    · exact Nat.lt_succ_of_lt (b.opened i hi)

def token (t : Token) (b : Builder) : Builder where
  nodes := b.nodes.modify b.current (.add (.token b.tokens.size))
  tokens := b.tokens.push ⟨t, b.current⟩
  current := b.current
  outer := b.outer
  cursor := t.stop
  stored := by
    rw [Array.size_modify]
    exact stored_modify b.stored fun n hn => (b.stored _ n hn).add_token _
  opened := by
    rw [Array.size_modify]
    exact b.opened

/-- Goes back to the node around the finished one; none is around the document. -/
def finish (b : Builder) : Builder where
  nodes := b.nodes.modify b.current fun n => { n with span := b.closedSpan n }
  tokens := b.tokens
  current := b.outer.headD b.current
  outer := b.outer.tail
  cursor := b.cursor
  stored := by
    rw [Array.size_modify]
    exact stored_modify b.stored fun n hn =>
      ⟨(b.stored _ n hn).parent_lt, (b.stored _ n hn).children_lt, (b.stored _ n hn).ascending⟩
  opened := by
    rw [Array.size_modify]
    intro i hi
    apply b.opened
    cases houter : b.outer <;> simp_all

section
variable (b : Builder)

theorem start_size (kind : NodeKind) : (b.start kind).nodes.size = b.nodes.size + 1 := by
  rw [start, Array.size_push, Array.size_modify]

theorem start_new (kind : NodeKind) : (b.start kind).nodes[b.nodes.size]? =
    some ⟨kind, .empty b.cursor, some b.current, []⟩ := by
  rw [start, Array.getElem?_push, if_pos Array.size_modify.symm]

theorem start_open (kind : NodeKind) : (b.start kind).nodes[b.current]? =
    b.nodes[b.current]?.map (.add (.node b.nodes.size)) := by
  have hlt := b.opened _ List.mem_cons_self
  rw [start, Array.getElem?_push, Array.size_modify, if_neg (Nat.ne_of_lt hlt),
    Array.getElem?_modify, if_pos rfl]

theorem start_other (kind : NodeKind) {i : Nat} (hi : i < b.nodes.size) (hne : i ≠ b.current) :
    (b.start kind).nodes[i]? = b.nodes[i]? := by
  rw [start, Array.getElem?_push, Array.size_modify, if_neg (Nat.ne_of_lt hi),
    Array.getElem?_modify, if_neg hne.symm]

theorem finish_current : b.finish.nodes[b.current]? =
    b.nodes[b.current]?.map fun n => { n with span := b.closedSpan n } := by
  rw [finish, Array.getElem?_modify, if_pos rfl]

theorem finish_other {i : Nat} (h : i ≠ b.current) : b.finish.nodes[i]? = b.nodes[i]? := by
  rw [finish, Array.getElem?_modify, if_neg h.symm]

end

def addAll : List Tree → Builder → Builder
  | [], b => b
  | .token t :: xs, b => addAll xs (b.token t)
  | .node kind _ cs :: xs, b => addAll xs (addAll cs (b.start kind)).finish

end Builder

end Arena

/-- The arena of a document. -/
def Tree.arena (t : Tree) : Arena := (Arena.Builder.addAll t.elements .new).finish.toArena

end DiagramText
