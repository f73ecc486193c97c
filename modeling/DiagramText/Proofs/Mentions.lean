import DiagramText.Proofs.Entries
import DiagramText.Proofs.Layout

/-!
# The mentions of a tree

The walk over a tree shows the paths, assignments and chains that the outline
is made from, with the scope as the segments of the shapes around and with the
nodes themselves. The mentions of a tree are those of its walk, where a scope
has become an id, and they are grounded: what is assigned to a shape, or to
the scope itself, follows the path that mentions it.
-/

set_option autoImplicit false

namespace DiagramText.Mentions
open Mention Entries Layout DiagramText.Tree

/-- The id of a shape by the segments of its whole path. -/
def idOf (segments : List String) : Id := ⟨".".intercalate segments⟩

def scopeId (scope : List String) : Option Id := if scope = [] then none else some (idOf scope)

theorem idOf_snoc {scope : List String} (h : scope ≠ []) (s : String) :
    idOf (scope ++ [s]) = (idOf scope).nest ⟨s⟩ := by
  simp [idOf, Id.nest, String.intercalate_append_of_ne_nil h (List.cons_ne_nil s [])]

theorem enter_scope (scope : List String) (s : String) :
    enter (scopeId scope) s = idOf (scope ++ [s]) := by
  by_cases h : scope = []
  · subst h
    simp [scopeId, enter, idOf]
  · rw [idOf_snoc h]
    simp [scopeId, h, enter]

theorem resolve_scope (scope segments : List String) :
    resolve (scopeId scope) segments = scopeId (scope ++ segments) := by
  induction segments generalizing scope with
  | nil => rw [resolve, List.append_nil]
  | cons s rest ih =>
    have hs : some (idOf (scope ++ [s])) = scopeId (scope ++ [s]) := by simp [scopeId]
    rw [resolve, enter_scope, hs, ih, List.append_assoc, List.singleton_append]

theorem along_scope (scope segments : List String) :
    along (scopeId scope) segments =
      (List.range segments.length).map fun k => idOf (scope ++ segments.take (k + 1)) := by
  induction segments generalizing scope with
  | nil => rfl
  | cons s rest ih =>
    have hs : some (idOf (scope ++ [s])) = scopeId (scope ++ [s]) := by simp [scopeId]
    rw [along, enter_scope, hs, ih, List.length_cons, List.range_succ_eq_map, List.map_cons,
      List.map_map]
    simp

theorem mem_marks {scope segments : List String} {span : Span} {m : Mark} :
    m ∈ marks (.path (scopeId scope) segments span) ↔
      1 ≤ m.depth ∧ m.depth ≤ segments.length ∧ m.id = idOf (scope ++ segments.take m.depth) ∧
        m.span = span := by
  simp only [marks, along_scope, List.mem_map, Prod.exists, List.mem_zipIdx_iff_le_and_getElem?_sub,
    List.getElem?_map, Option.map_eq_some_iff, List.getElem?_eq_some_iff, List.length_range,
    List.getElem_range]
  constructor
  · rintro ⟨id, k, ⟨hk, j, ⟨hj, rfl⟩, rfl⟩, rfl⟩
    refine ⟨hk, ?_, ?_, rfl⟩
    · exact Nat.le_of_pred_lt hj
    · simp only
      rw [Nat.sub_add_cancel hk]
  · rintro ⟨hk, hle, hid, hspan⟩
    refine ⟨m.id, m.depth, ⟨hk, m.depth - 1, ⟨by omega, rfl⟩, ?_⟩, by rw [← hspan]⟩
    rw [Nat.sub_add_cancel hk, hid]

theorem resolve_marked (scope : Option Id) (segments : List String) (span : Span) {id : Id}
    (h : resolve scope segments = some id) :
    scope = some id ∨ ∃ k ∈ marks (.path scope segments span), k.id = id := by
  have hids : scope = some id ∨ id ∈ along scope segments := by
    induction segments generalizing scope with
    | nil => exact .inl h
    | cons s rest ih =>
      rcases ih _ h with heq | hmem
      · exact .inr (by rw [along, Option.some.inj heq]; exact List.mem_cons_self)
      · exact .inr (List.mem_cons_of_mem _ hmem)
  refine hids.imp_right fun hmem => ?_
  rw [← List.zipIdx_map_fst 1 (along scope segments)] at hmem
  obtain ⟨shape, hshape, rfl⟩ := List.mem_map.mp hmem
  exact ⟨_, List.mem_map.mpr ⟨shape, hshape, rfl⟩, rfl⟩

/-- What is given to a shape was known before or has been marked. -/
def GroundedIn (known : Id → Prop) (ms : List Mention) : Prop :=
  ∀ before m after, ms = before ++ m :: after →
    ∀ id, owner? m = some id → known id ∨ ∃ k ∈ allMarks before, k.id = id

theorem grounded_nil (known : Id → Prop) : GroundedIn known [] := by
  intro before m after h
  simp at h

theorem grounded_append {known : Id → Prop} {xs ys : List Mention} (hx : GroundedIn known xs)
    (hy : GroundedIn (fun id => known id ∨ ∃ k ∈ allMarks xs, k.id = id) ys) :
    GroundedIn known (xs ++ ys) := by
  intro before m after heq id ho
  rcases List.append_eq_append_iff.mp heq with ⟨mid, rfl, hmid⟩ | ⟨mid, rfl, hmid⟩
  · rcases hy mid m after hmid id ho with (hk | ⟨k, hk, hid⟩) | ⟨k, hk, hid⟩
    · exact .inl hk
    · exact .inr ⟨k, by simp [allMarks] at hk ⊢; exact .inl hk, hid⟩
    · exact .inr ⟨k, by simp [allMarks] at hk ⊢; exact .inr hk, hid⟩
  · cases mid with
    | nil =>
      rcases hy [] m after (by simpa using hmid.symm) id ho with (hk | ⟨k, hk, hid⟩) | ⟨k, hk, -⟩
      · exact .inl hk
      · exact .inr ⟨k, by simpa using hk, hid⟩
      · simp [allMarks] at hk
    | cons n mid =>
      obtain ⟨rfl, -⟩ : m = n ∧ _ := by simpa using hmid
      exact hx before m mid rfl id ho

theorem grounded_weaken {known known' : Id → Prop} {ms : List Mention} (h : GroundedIn known ms)
    (hk : ∀ id, known id → known' id) : GroundedIn known' ms :=
  fun before m after heq id ho => (h before m after heq id ho).imp_left (hk id)

theorem grounded_unowned {known : Id → Prop} {ms : List Mention}
    (h : ∀ m ∈ ms, owner? m = none) : GroundedIn known ms := by
  intro before m after heq id ho
  rw [h m (by simp [heq])] at ho
  simp at ho

theorem grounded_known {known : Id → Prop} {ms : List Mention}
    (h : ∀ m ∈ ms, ∀ id, owner? m = some id → known id) : GroundedIn known ms := by
  intro before m after heq id ho
  exact .inl (h m (by simp [heq]) id ho)

theorem assigned_owner {shape : Id} {path : List String} {value : String} :
    ∀ m ∈ assigned shape path value, owner? m = some shape := by
  intro m hm
  unfold assigned at hm
  split at hm
  · split at hm
    · obtain rfl := List.mem_singleton.mp hm
      rfl
    · split at hm
      · obtain rfl := List.mem_singleton.mp hm
        rfl
      · simp at hm
  · simp at hm

theorem grounded_path {scope : Option Id} {segments : List String} {span : Span}
    {ms : List Mention} (h : GroundedIn (fun id => resolve scope segments = some id) ms) :
    GroundedIn (fun id => scope = some id) (.path scope segments span :: ms) := by
  have hp : GroundedIn (fun id => scope = some id) [.path scope segments span] :=
    grounded_unowned (by simp [owner?])
  refine grounded_append hp (grounded_weaken h fun id hid => ?_)
  simpa [allMarks] using resolve_marked scope segments span hid

theorem head_grounded (scope : Option Id) (path : Tree) (label : Option Tree)
    {ms : List Mention} (h : GroundedIn (fun id => resolve scope path.segments = some id) ms) :
    GroundedIn (fun id => scope = some id) (headMentions scope path label ++ ms) := by
  unfold headMentions
  rw [List.cons_append]
  refine grounded_path (grounded_append ?_ (grounded_weaken h fun _ => .inl))
  refine grounded_known fun m hm id ho => ?_
  cases hshape : resolve scope path.segments with
  | none => simp [hshape] at hm
  | some shape =>
    cases label with
    | none => simp [hshape] at hm
    | some v =>
      obtain rfl : m = .label shape v.cooked := by simpa [hshape] using hm
      exact ho

theorem property_grounded (scope : Option Id) (t : Tree) :
    GroundedIn (fun id => scope = some id) (t.propertyMentions scope) := by
  unfold propertyMentions
  split
  · exact grounded_nil _
  · next key hkey =>
    have hassigned {shape : Id} {value : String}
        (hshape : resolve scope key.targetPath = some shape) :
        GroundedIn (fun id => resolve scope key.targetPath = some id)
          (assigned shape key.keywordPath value) := by
      refine grounded_known fun m hm id ho => ?_
      rw [assigned_owner m hm] at ho
      rw [hshape, ho]
    by_cases htarget : key.targetPath = []
    · rw [if_pos htarget, List.nil_append]
      rw [htarget] at hassigned ⊢
      split
      · next hshape _ => exact hassigned hshape
      · exact grounded_nil _
    · rw [if_neg htarget, List.singleton_append]
      apply grounded_path
      split
      · next hshape _ => exact hassigned hshape
      · exact grounded_nil _

theorem node_grounded {k : NodeKind} {s : Nat} {cs : List Tree}
    (ih : ∀ counts scope, GroundedIn (fun id => scope = some id) (mentionsOf counts scope cs))
    (scope : Option Id) :
    GroundedIn (fun id => scope = some id) (mentions scope (.node k s cs)) := by
  cases k with
  | document | subShapeDefinition | inlineShapeDefinition => exact ih _ scope
  | shapeDefinition =>
    simp only [mentions]
    split
    · exact grounded_nil _
    · next path hpath => exact head_grounded scope path _ (ih _ _)
  | shapeConnection =>
    refine grounded_append (ih _ scope) (grounded_unowned ?_)
    intro m hm
    obtain ⟨e, -, rfl⟩ := List.mem_map.mp hm
    rfl
  | shapeId => exact grounded_unowned (by simp [mentions, owner?])
  | property => exact property_grounded scope _
  | _ => exact grounded_nil _

theorem row_grounded (xs : List Tree) : ∀ (counts : NodeKind → Bool) (scope : Option Id),
    GroundedIn (fun id => scope = some id) (mentionsOf counts scope xs) := by
  induction xs using forest_induction with
  | nil => exact fun _ _ => grounded_nil _
  | token t xs ih => exact ih
  | node k s cs xs ihc ih =>
    intro counts scope
    rw [mentionsOf]
    split
    · exact grounded_append (node_grounded ihc scope)
        (grounded_weaken (ih counts scope) fun _ => .inl)
    · exact ih counts scope

/-- In the mentions of a whole tree everything is given to shapes that were mentioned. -/
theorem mentions_grounded (t : Tree) : Grounded (t.mentions none) := by
  have h : GroundedIn (fun id => none = some id) (t.mentions none) := by
    cases t with
    | token => exact grounded_nil _
    | node k s cs => exact node_grounded (row_grounded cs) none
  intro before m after heq id ho
  exact (h before m after heq id ho).resolve_left (by simp)

inductive Sight where
  | path (scope segments : List String) (place : Tree)
  | label (shape : List String) (text : String)
  | form (shape : List String) (name : String)
  | chain (scope : List String) (place : Tree)

namespace Sight

def mentions : Sight → List Mention
  | path scope segments place => [.path (scopeId scope) segments place.span]
  | label shape text => (scopeId shape).toList.map (.label · text)
  | form shape name => (scopeId shape).toList.map (.form · name)
  | chain scope place => (place.namedEdges (scopeId scope)).map .edge

end Sight

/-- What a value says about the shape, by the keyword path of the property. -/
def assignments (shape keywordPath : List String) (value : String) : List Sight :=
  match keywordPath with
  | [word] =>
    if Text.sameFolded word "label" then [.label shape value]
    else if Text.sameFolded word "shape" then [.form shape value]
    else []
  | _ => []

def headSights (scope : List String) (path : Tree) (label? : Option Tree) : List Sight :=
  .path scope path.segments path ::
    label?.toList.map fun v => .label (scope ++ path.segments) v.cooked

def propertySights (scope : List String) (t : Tree) : List Sight :=
  match t.key? with
  | none => []
  | some key =>
    (if key.targetPath = [] then [] else [.path scope key.targetPath key]) ++
      t.value?.toList.flatMap fun v =>
        assignments (scope ++ key.targetPath) key.keywordPath v.cooked

mutual

/-- What a tree shows in a scope, in document order. -/
def walk (scope : List String) : Tree → List Sight
  | .token _ => []
  | .node k s cs =>
    match k with
    | .document | .subShapeDefinition | .inlineShapeDefinition =>
      walkOf NodeKind.isStatement scope cs
    | .shapeDefinition =>
      match (Tree.node k s cs).shapePath? with
      | none => []
      | some p =>
        headSights scope p (Tree.node k s cs).label? ++
          walkOf (· == .subShapeDefinition) (scope ++ p.segments) cs
    | .shapeConnection => walkOf isEndpointBlock scope cs ++ [.chain scope (.node k s cs)]
    | .shapeId => [.path scope (Tree.node k s cs).segments (.node k s cs)]
    | .property => propertySights scope (.node k s cs)
    | _ => []

def walkOf (counts : NodeKind → Bool) (scope : List String) : List Tree → List Sight
  | [] => []
  | c :: cs => (if c.kind?.any counts then walk scope c else []) ++ walkOf counts scope cs

end

theorem mem_walkOf {counts : NodeKind → Bool} {scope : List String} {xs : List Tree} {s : Sight} :
    s ∈ walkOf counts scope xs ↔
      ∃ x ∈ xs, x.kind?.any counts = true ∧ s ∈ walk scope x := by
  induction xs with
  | nil => simp [walkOf]
  | cons x xs ih =>
    rw [walkOf, List.mem_append, ih]
    by_cases hx : x.kind?.any counts = true <;> simp [hx]

theorem endpoint_block {x : Tree} (h : x.kind?.any isEndpointBlock = true) :
    x.kind? = some .shapeId ∨ x.kind? = some .inlineShapeDefinition := by
  obtain ⟨k, hk, hblock⟩ := (Option.any_eq_true _ _).mp h
  simp only [isEndpointBlock, Bool.or_eq_true, beq_iff_eq] at hblock
  rcases hblock with rfl | rfl
  · exact .inl hk
  · exact .inr hk

theorem assignments_mentions (shape path : List String) (value : String) :
    (assignments shape path value).flatMap Sight.mentions =
      (scopeId shape).toList.flatMap (assigned · path value) := by
  match path with
  | [] => cases scopeId shape <;> rfl
  | [word] =>
    by_cases hl : Text.sameFolded word "label" = true
    · cases h : scopeId shape <;> simp [assignments, assigned, Sight.mentions, hl, h]
    · by_cases hs : Text.sameFolded word "shape" = true
      · cases h : scopeId shape <;> simp [assignments, assigned, Sight.mentions, hl, hs, h]
      · cases scopeId shape <;> simp [assignments, assigned, hl, hs]
  | _ :: _ :: _ => cases scopeId shape <;> rfl

theorem head_mentions (scope : List String) (path : Tree) (label : Option Tree) :
    (headSights scope path label).flatMap Sight.mentions =
      headMentions (scopeId scope) path label := by
  unfold headSights headMentions
  rw [List.flatMap_cons, Sight.mentions, resolve_scope]
  cases label <;> cases h : scopeId (scope ++ path.segments) <;> simp [Sight.mentions, h]

theorem property_mentions (scope : List String) (t : Tree) :
    (propertySights scope t).flatMap Sight.mentions = t.propertyMentions (scopeId scope) := by
  unfold propertySights propertyMentions
  cases t.key? with
  | none => rfl
  | some key =>
    simp only [List.flatMap_append, resolve_scope]
    congr 1
    · split <;> simp [Sight.mentions]
    · cases t.value? with
      | none => cases scopeId (scope ++ key.targetPath) <;> rfl
      | some v =>
        simp only [Option.toList_some, List.flatMap_cons, List.flatMap_nil, List.append_nil,
          assignments_mentions]
        cases scopeId (scope ++ key.targetPath) <;> simp

theorem node_mentions {k : NodeKind} {s : Nat} {cs : List Tree}
    (ih : ∀ counts scope,
      (walkOf counts scope cs).flatMap Sight.mentions = mentionsOf counts (scopeId scope) cs)
    (scope : List String) :
    (walk scope (.node k s cs)).flatMap Sight.mentions =
      mentions (scopeId scope) (.node k s cs) := by
  cases k with
  | document | subShapeDefinition | inlineShapeDefinition => exact ih _ scope
  | shapeDefinition =>
    simp only [walk, mentions]
    cases (Tree.node .shapeDefinition s cs).shapePath? with
    | none => rfl
    | some p =>
      simp only
      rw [List.flatMap_append, head_mentions, ih, resolve_scope]
  | shapeConnection =>
    rw [walk, mentions, List.flatMap_append, ih]
    simp [Sight.mentions]
  | shapeId => simp [walk, mentions, Sight.mentions]
  | property => exact property_mentions scope _
  | _ => rfl

theorem row_mentions (xs : List Tree) : ∀ (counts : NodeKind → Bool) (scope : List String),
    (walkOf counts scope xs).flatMap Sight.mentions = mentionsOf counts (scopeId scope) xs := by
  induction xs using forest_induction with
  | nil => exact fun _ _ => rfl
  | token t xs ih => exact ih
  | node k s cs xs ihc ih =>
    intro counts scope
    rw [walkOf, mentionsOf, List.flatMap_append, ih]
    congr 1
    split
    · exact node_mentions ihc scope
    · rfl

theorem walk_mentions (scope : List String) (t : Tree) :
    (walk scope t).flatMap Sight.mentions = t.mentions (scopeId scope) := by
  cases t with
  | token => rfl
  | node k s cs => exact node_mentions (row_mentions cs) scope

end DiagramText.Mentions
