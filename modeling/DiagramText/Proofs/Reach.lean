import DiagramText.Proofs.Mentions
import DiagramText.Proofs.Schema
import Mathlib.Logic.Relation

/-!
# What an outline reaches

From the document a statement list opens further lists: a bare block and an
inline endpoint in the same scope, the body of a shape in the scope of the
shape. Blocks of connections and properties are not opened. What the walk over
a lawful tree shows is what the statements of the lists reached in this way
show.
-/

set_option autoImplicit false

namespace DiagramText.Reach
open Relation Production Layout Schema Mentions DiagramText.Tree

def statementKind : Statement → NodeKind
  | .shape _ => .shapeDefinition
  | .connection _ => .shapeConnection
  | .property _ => .property
  | .block _ => .subShapeDefinition
  | .error _ => .error

def endpointKind : Endpoint → NodeKind
  | .shape _ => .shapeId
  | .inline _ => .inlineShapeDefinition
  | .missing _ => .error

theorem statement_iff {x : Tree} {s : Statement} :
    Statement.ofTree? x = some s ↔ s.tree = x ∧ x.kind? = some (statementKind s) := by
  constructor
  · intro h
    unfold Statement.ofTree? at h
    split at h <;> simp_all <;> subst h <;> exact ⟨rfl, rfl⟩
  · rintro ⟨rfl, hk⟩
    cases s <;> simp only [Statement.tree, statementKind] at hk <;>
      simp [Statement.ofTree?, Statement.tree, hk]

theorem endpoint_iff {x : Tree} {e : Endpoint} :
    Endpoint.ofTree? x = some e ↔ e.tree = x ∧ x.kind? = some (endpointKind e) := by
  constructor
  · intro h
    unfold Endpoint.ofTree? at h
    split at h <;> simp_all <;> subst h <;> exact ⟨rfl, rfl⟩
  · rintro ⟨rfl, hk⟩
    cases e <;> simp only [Endpoint.tree, endpointKind] at hk <;>
      simp [Endpoint.ofTree?, Endpoint.tree, hk]

theorem mem_statements {l : Tree} {s : Statement} :
    s ∈ l.statements ↔ s.tree ∈ l.elements ∧ s.tree.kind? = some (statementKind s) := by
  rw [statements, List.mem_filterMap]
  constructor
  · rintro ⟨x, hx, hs⟩
    obtain ⟨rfl, hk⟩ := statement_iff.mp hs
    exact ⟨hx, hk⟩
  · rintro ⟨hx, hk⟩
    exact ⟨_, hx, statement_iff.mpr ⟨rfl, hk⟩⟩

theorem mem_endpoints {c : Tree} {e : Endpoint} :
    e ∈ c.endpoints ↔ e.tree ∈ c.elements ∧ e.tree.kind? = some (endpointKind e) := by
  rw [endpoints, List.mem_filterMap]
  constructor
  · rintro ⟨x, hx, he⟩
    obtain ⟨rfl, hk⟩ := endpoint_iff.mp he
    exact ⟨hx, hk⟩
  · rintro ⟨hx, hk⟩
    exact ⟨_, hx, endpoint_iff.mpr ⟨rfl, hk⟩⟩

theorem child_iff {t x : Tree} {k : NodeKind} (h : t.child? k = some x) :
    x ∈ t.elements ∧ x.kind? = some k :=
  ⟨List.mem_of_find?_eq_some h, by simpa [isKind] using List.find?_some h⟩

/-- One list of statements opens another, each with the segments of the shapes around it. -/
inductive Opens : List String × Tree → List String × Tree → Prop where
  | block {scope : List String} {l b : Tree} (statement : .block b ∈ l.statements) :
      Opens (scope, l) (scope, b)
  | body {scope : List String} {l d p b : Tree} (statement : .shape d ∈ l.statements)
      (path : d.shapePath? = some p) (body : d.body? = some b) :
      Opens (scope, l) (scope ++ p.segments, b)
  | inline {scope : List String} {l c b : Tree} (statement : .connection c ∈ l.statements)
      (endpoint : .inline b ∈ c.endpoints) : Opens (scope, l) (scope, b)

/-- The list is reached from the root, inside the shapes whose paths the scope joins. -/
def Reached (root : Tree) (scope : List String) (l : Tree) : Prop :=
  ReflTransGen Opens ([], root) (scope, l)

/-- A statement of the list names a shape by the path of a node. -/
inductive Names (l : Tree) : List String → Tree → Prop where
  | shape {d p : Tree} (statement : .shape d ∈ l.statements) (path : d.shapePath? = some p) :
      Names l p.segments p
  | endpoint {c p : Tree} (statement : .connection c ∈ l.statements)
      (endpoint : .shape p ∈ c.endpoints) : Names l p.segments p
  | property {a key : Tree} (statement : .property a ∈ l.statements) (path : a.key? = some key)
      (target : key.targetPath ≠ []) : Names l key.targetPath key

/-- What the statements of a list show in a scope. -/
inductive Shows (scope : List String) (l : Tree) : Sight → Prop where
  | path {segments : List String} {p : Tree} (names : Names l segments p) :
      Shows scope l (.path scope segments p)
  | label {d p v : Tree} (statement : .shape d ∈ l.statements) (path : d.shapePath? = some p)
      (label : d.label? = some v) : Shows scope l (.label (scope ++ p.segments) v.cooked)
  | assigned {a key v : Tree} {s : Sight} (statement : .property a ∈ l.statements)
      (path : a.key? = some key) (value : a.value? = some v)
      (sight : s ∈ assignments (scope ++ key.targetPath) key.keywordPath v.cooked) :
      Shows scope l s
  | chain {c : Tree} (statement : .connection c ∈ l.statements) : Shows scope l (.chain scope c)

/-- Nodes that hold a list of statements for the outline. -/
def isList (t : Tree) : Bool :=
  t.isKind .document || t.isKind .subShapeDefinition || t.isKind .inlineShapeDefinition

theorem walk_list {l : Tree} (h : isList l = true) (scope : List String) :
    walk scope l = walkOf NodeKind.isStatement scope l.elements := by
  cases l with
  | token => simp [isList, isKind, kind?] at h
  | node k s cs => cases k <;> simp_all [isList, isKind, kind?] <;> rfl

theorem walk_shape {d p : Tree} (h : d.kind? = some .shapeDefinition)
    (hp : d.shapePath? = some p) (scope : List String) :
    walk scope d = headSights scope p d.label? ++
      walkOf (· == .subShapeDefinition) (scope ++ p.segments) d.elements := by
  obtain ⟨s, cs, rfl⟩ := node_of_kind h
  simp only [walk, hp]
  rfl

theorem walk_connection {c : Tree} (h : c.kind? = some .shapeConnection) (scope : List String) :
    walk scope c = walkOf isEndpointBlock scope c.elements ++ [.chain scope c] := by
  obtain ⟨s, cs, rfl⟩ := node_of_kind h
  rw [walk]
  rfl

theorem walk_path {p : Tree} (h : p.kind? = some .shapeId) (scope : List String) :
    walk scope p = [.path scope p.segments p] := by
  obtain ⟨s, cs, rfl⟩ := node_of_kind h
  rw [walk]

theorem walk_property {a : Tree} (h : a.kind? = some .property) (scope : List String) :
    walk scope a = propertySights scope a := by
  obtain ⟨s, cs, rfl⟩ := node_of_kind h
  rw [walk]

theorem walk_error {x : Tree} (h : x.kind? = some .error) (scope : List String) :
    walk scope x = [] := by
  obtain ⟨s, cs, rfl⟩ := node_of_kind h
  rw [walk] <;> simp

theorem statement_walk {l : Tree} {s : Statement} {scope : List String} (hl : isList l = true)
    (h : s ∈ l.statements) {seen : Sight} (hs : seen ∈ walk scope s.tree) :
    seen ∈ walk scope l := by
  obtain ⟨hx, hk⟩ := mem_statements.mp h
  rw [walk_list hl, mem_walkOf]
  refine ⟨_, hx, ?_, hs⟩
  rw [hk]
  cases s <;> rfl

theorem opens_list {a b : List String × Tree} (h : Opens a b) : isList b.2 = true := by
  cases h with
  | block statement =>
    have hk := (mem_statements.mp statement).2
    simp only [Statement.tree, statementKind] at hk
    simp [isList, isKind, hk]
  | body statement path body => simp [isList, isKind, (child_iff body).2]
  | inline statement endpoint =>
    have hk := (mem_endpoints.mp endpoint).2
    simp only [Endpoint.tree, endpointKind] at hk
    simp [isList, isKind, hk]

theorem opens_walk {a b : List String × Tree} (h : Opens a b) (hl : isList a.2 = true) :
    ∀ s ∈ walk b.1 b.2, s ∈ walk a.1 a.2 := by
  intro s hs
  cases h with
  | block statement => exact statement_walk hl statement hs
  | body statement path body =>
    obtain ⟨hb, hk⟩ := child_iff body
    refine statement_walk hl statement ?_
    rw [walk_shape (mem_statements.mp statement).2 path]
    exact List.mem_append_right _ (mem_walkOf.mpr ⟨_, hb, by simp [hk], hs⟩)
  | inline statement endpoint =>
    obtain ⟨hb, hk⟩ := mem_endpoints.mp endpoint
    simp only [Endpoint.tree, endpointKind] at hb hk
    refine statement_walk hl statement ?_
    rw [walk_connection (mem_statements.mp statement).2]
    exact List.mem_append_left _ (mem_walkOf.mpr ⟨_, hb, by simp [hk, isEndpointBlock], hs⟩)

theorem names_walk {l p : Tree} {segments : List String} (h : Names l segments p)
    (hl : isList l = true) (scope : List String) :
    Sight.path scope segments p ∈ walk scope l := by
  cases h with
  | shape statement path =>
    refine statement_walk hl statement ?_
    rw [walk_shape (mem_statements.mp statement).2 path]
    simp [headSights]
  | endpoint statement endpoint =>
    obtain ⟨hp, hk⟩ := mem_endpoints.mp endpoint
    simp only [Endpoint.tree, endpointKind] at hp hk
    refine statement_walk hl statement ?_
    rw [walk_connection (mem_statements.mp statement).2]
    refine List.mem_append_left _ (mem_walkOf.mpr ⟨_, hp, by simp [hk, isEndpointBlock], ?_⟩)
    simp [walk_path hk]
  | property statement path target =>
    refine statement_walk hl statement ?_
    rw [walk_property (mem_statements.mp statement).2]
    simp [propertySights, Statement.tree, path, target]

theorem shows_walk {scope : List String} {l : Tree} {s : Sight} (h : Shows scope l s)
    (hl : isList l = true) : s ∈ walk scope l := by
  cases h with
  | path names => exact names_walk names hl scope
  | label statement path label =>
    refine statement_walk hl statement ?_
    rw [walk_shape (mem_statements.mp statement).2 path]
    simp [headSights, Statement.tree, label]
  | assigned statement path value sight =>
    refine statement_walk hl statement ?_
    rw [walk_property (mem_statements.mp statement).2]
    simp [propertySights, Statement.tree, path, value, sight]
  | chain statement =>
    refine statement_walk hl statement ?_
    rw [walk_connection (mem_statements.mp statement).2]
    simp [Statement.tree]

theorem element_smaller {t x : Tree} (h : x ∈ t.elements) : sizeOf x < sizeOf t := by
  cases t with
  | token => simp [elements] at h
  | node k s cs =>
    have hx : sizeOf x < sizeOf cs := List.sizeOf_lt_of_mem h
    simp only [node.sizeOf_spec]
    omega

theorem kind_count (k : NodeKind) (xs : List Tree) :
    (xs.filter (isKind k)).length = (signature xs).count (.node k) := by
  induction xs with
  | nil => rfl
  | cons x xs ih =>
    cases x with
    | token t =>
      have hs : (signature (.token t :: xs)).count (.node k) = (signature xs).count (.node k) := by
        by_cases ht : t.isTrivia <;> simp [signature, symbol?, ht]
      rw [hs, ← ih]
      rfl
    | node k' s cs =>
      rw [signature_node, List.count_cons, ← ih, List.filter_cons]
      by_cases hk : k' = k <;> simp [isKind, kind?, hk]

theorem body_only {d b : Tree} (h : Lawful d) (hd : d.kind? = some .shapeDefinition)
    (hb : b ∈ d.elements) (hk : b.kind? = some .subShapeDefinition) : d.body? = some b := by
  obtain ⟨w, hw, l, r, rfl, hl, hr⟩ := h.conforms hd
  have hcount : (d.elements.filter (isKind .subShapeDefinition)).length ≤ 1 := by
    rw [kind_count, hw]
    cases hl <;> cases hr <;> decide
  have hmem : b ∈ d.elements.filter (isKind .subShapeDefinition) :=
    List.mem_filter.mpr ⟨hb, by simp [isKind, hk]⟩
  rw [body?, child?, ← List.head?_filter]
  cases hf : d.elements.filter (isKind .subShapeDefinition) with
  | nil => simp [hf] at hmem
  | cons x xs =>
    cases xs with
    | nil =>
      obtain rfl : b = x := by simpa [hf] using hmem
      rfl
    | cons y ys => simp [hf] at hcount

theorem property_shows {l a : Tree} {scope : List String} {s : Sight}
    (h : .property a ∈ l.statements) (hs : s ∈ propertySights scope a) : Shows scope l s := by
  unfold propertySights at hs
  split at hs
  · simp at hs
  · next key hkey =>
    rcases List.mem_append.mp hs with hs | hs
    · split at hs
      · simp at hs
      · next htarget =>
        obtain rfl := List.mem_singleton.mp hs
        exact .path (.property h hkey htarget)
    · obtain ⟨v, hv, hs⟩ := List.mem_flatMap.mp hs
      exact .assigned h hkey (by simpa using hv) hs

theorem head_shows {l d p : Tree} {scope : List String} {s : Sight}
    (h : .shape d ∈ l.statements) (hp : d.shapePath? = some p)
    (hs : s ∈ headSights scope p d.label?) : Shows scope l s := by
  rcases List.mem_cons.mp hs with rfl | hs
  · exact .path (.shape h hp)
  · obtain ⟨v, hv, rfl⟩ := List.mem_map.mp hs
    exact .label h hp (by simpa using hv)

theorem shown_inside {scope : List String} {l : Tree} {s : Sight} (hl : isList l = true)
    (hlaw : ∀ n ∈ l.nodes, Lawful n) (hs : s ∈ walk scope l) :
    Shows scope l s ∨ ∃ b, Opens (scope, l) b ∧ s ∈ walk b.1 b.2 := by
  rw [walk_list hl, mem_walkOf] at hs
  obtain ⟨x, hx, hk, hs⟩ := hs
  obtain ⟨k, hkx, hk⟩ := (Option.any_eq_true _ _).mp hk
  have hxn : x ∈ l.nodes := nodes_element hx (node_self hkx)
  cases k with
  | shapeDefinition =>
    have hst : .shape x ∈ l.statements := mem_statements.mpr ⟨hx, hkx⟩
    obtain ⟨p, hp⟩ := Option.isSome_iff_exists.mp (lawful_shapePath (hlaw x hxn) hkx)
    rw [walk_shape hkx hp] at hs
    rcases List.mem_append.mp hs with hs | hs
    · exact .inl (head_shows hst hp hs)
    · obtain ⟨b, hb, hkb, hs⟩ := mem_walkOf.mp hs
      exact .inr ⟨_, .body hst hp (body_only (hlaw x hxn) hkx hb (kind_of_any hkb)), hs⟩
  | shapeConnection =>
    have hst : .connection x ∈ l.statements := mem_statements.mpr ⟨hx, hkx⟩
    rw [walk_connection hkx] at hs
    rcases List.mem_append.mp hs with hs | hs
    · obtain ⟨b, hb, hkb, hs⟩ := mem_walkOf.mp hs
      rcases endpoint_block hkb with hk | hk
      · rw [walk_path hk] at hs
        obtain rfl := List.mem_singleton.mp hs
        exact .inl (.path (.endpoint hst (mem_endpoints.mpr ⟨hb, hk⟩)))
      · exact .inr ⟨_, .inline hst (mem_endpoints.mpr ⟨hb, hk⟩), hs⟩
    · obtain rfl := List.mem_singleton.mp hs
      exact .inl (.chain hst)
  | property =>
    rw [walk_property hkx] at hs
    exact .inl (property_shows (mem_statements.mpr ⟨hx, hkx⟩) hs)
  | subShapeDefinition => exact .inr ⟨_, .block (mem_statements.mpr ⟨hx, hkx⟩), hs⟩
  | error => simp [walk_error hkx] at hs
  | _ => simp [NodeKind.isStatement] at hk

theorem opens_below {a b : List String × Tree} (h : Opens a b) :
    ∃ x ∈ a.2.elements, b.2 = x ∨ b.2 ∈ x.elements := by
  cases h with
  | block statement => exact ⟨_, (mem_statements.mp statement).1, .inl rfl⟩
  | body statement _ body =>
    exact ⟨_, (mem_statements.mp statement).1, .inr (child_iff body).1⟩
  | inline statement endpoint =>
    exact ⟨_, (mem_statements.mp statement).1, .inr (mem_endpoints.mp endpoint).1⟩

theorem opens_smaller {a b : List String × Tree} (h : Opens a b) : sizeOf b.2 < sizeOf a.2 := by
  obtain ⟨x, hx, rfl | hb⟩ := opens_below h
  · exact element_smaller hx
  · exact (element_smaller hb).trans (element_smaller hx)

theorem opens_nodes {a b : List String × Tree} (h : Opens a b) {n : Tree} (hn : n ∈ b.2.nodes) :
    n ∈ a.2.nodes := by
  obtain ⟨x, hx, rfl | hb⟩ := opens_below h
  · exact nodes_element hx hn
  · exact nodes_element hx (nodes_element hb hn)

theorem comes_from {α : Type} {P Q : List String × Tree → α → Prop}
    (inside : ∀ a x, isList a.2 = true → (∀ n ∈ a.2.nodes, Lawful n) → P a x →
      Q a x ∨ ∃ b, Opens a b ∧ P b x)
    (a : List String × Tree) (x : α) (ha : isList a.2 = true) (hlaw : ∀ n ∈ a.2.nodes, Lawful n)
    (h : P a x) : ∃ b, ReflTransGen Opens a b ∧ Q b x := by
  rcases inside a x ha hlaw h with hown | ⟨b, hopens, hb⟩
  · exact ⟨a, .refl, hown⟩
  · have hsmall := opens_smaller hopens
    obtain ⟨c, hreach, hown⟩ := comes_from inside b x (opens_list hopens)
      (fun n hn => hlaw n (opens_nodes hopens hn)) hb
    exact ⟨c, .head hopens hreach, hown⟩
termination_by sizeOf a.2

theorem walk_shows {l : Tree} (hl : isList l = true) (hlaw : ∀ n ∈ l.nodes, Lawful n)
    (scope : List String) (s : Sight) (hs : s ∈ walk scope l) :
    ∃ scope' l', ReflTransGen Opens (scope, l) (scope', l') ∧ Shows scope' l' s := by
  obtain ⟨⟨scope', l'⟩, hreach, hshow⟩ :=
    comes_from (Q := fun a s => Shows a.1 a.2 s) (fun _ _ => shown_inside) (scope, l) s hl hlaw hs
  exact ⟨scope', l', hreach, hshow⟩

theorem passes_back {α : Type} {P : List String × Tree → α → Prop}
    (opened : ∀ a b x, Opens a b → isList a.2 = true → P b x → P a x)
    {a b : List String × Tree} (h : ReflTransGen Opens a b) (ha : isList a.2 = true) :
    isList b.2 = true ∧ ∀ x, P b x → P a x := by
  induction h with
  | refl => exact ⟨ha, fun _ hx => hx⟩
  | tail _ hopens ih =>
    exact ⟨opens_list hopens, fun x hx => ih.2 x (opened _ _ x hopens ih.1 hx)⟩

theorem reached_walk {a b : List String × Tree} (h : ReflTransGen Opens a b)
    (ha : isList a.2 = true) : isList b.2 = true ∧ ∀ s ∈ walk b.1 b.2, s ∈ walk a.1 a.2 :=
  passes_back (P := fun a s => s ∈ walk a.1 a.2)
    (fun _ _ s hopens hl => opens_walk hopens hl s) h ha

theorem walk_reached {root : Tree} (hl : isList root = true)
    (hlaw : ∀ n ∈ root.nodes, Lawful n) (s : Sight) :
    s ∈ walk [] root ↔ ∃ scope l, Reached root scope l ∧ Shows scope l s := by
  constructor
  · exact walk_shows hl hlaw [] s
  · rintro ⟨scope, l, hreach, hshow⟩
    obtain ⟨hlist, hback⟩ := reached_walk hreach hl
    exact hback s (shows_walk hshow hlist)

theorem parse_reached (text : String) (s : Sight) :
    s ∈ walk [] (parse text).tree ↔
      ∃ scope l, Reached (parse text).tree scope l ∧ Shows scope l s :=
  walk_reached rfl (fun n hn => (parse_lawful text n hn).1) s

end DiagramText.Reach
