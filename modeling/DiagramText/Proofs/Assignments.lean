import DiagramText.Proofs.Shapes

/-!
# Labels and forms of an outline

A shape is given a label by its definition, and a label or a form by the
properties of its body or by properties elsewhere that name it. The outline
keeps the assignment that stands last in the document, wherever in the nesting
of bodies, bare blocks and inline endpoints it stands, as the assignments are
read in the order of their values.
-/

set_option autoImplicit false

namespace DiagramText.Assignments
open Relation Production Layout Schema Entries Mentions Reach WalkOrder Widths Shapes
  DiagramText.Tree

/-- What can be given to a shape. -/
inductive Field where
  | label
  | form
  deriving DecidableEq

namespace Field

def keyword : Field → String
  | label => "label"
  | form => "shape"

def kept? : Field → OutlineShape → Option String
  | label, e => e.label
  | form, e => e.form

def mention : Field → Id → String → Mention
  | label => .label
  | form => .form

def ofPath? : List String → Option Field
  | [word] =>
    if Text.sameFolded word label.keyword then some label
    else if Text.sameFolded word form.keyword then some form
    else none
  | _ => none

end Field

/-- A label or a value that is given to a field of the shape with the whole path. -/
structure Assignment where
  shape : List String
  field : Field
  value : Tree

/-- A statement of the list makes the assignment in a scope. -/
inductive Gives (scope : List String) (l : Tree) : Assignment → Prop where
  | label {d p v : Tree} (statement : .shape d ∈ l.statements) (path : d.shapePath? = some p)
      (label : d.label? = some v) : Gives scope l ⟨scope ++ p.segments, .label, v⟩
  | property {a key v : Tree} {word : String} {field : Field}
      (statement : .property a ∈ l.statements) (path : a.key? = some key)
      (value : a.value? = some v) (keyword : key.keywordPath = [word])
      (folded : Text.sameFolded word field.keyword = true) :
      Gives scope l ⟨scope ++ key.targetPath, field, v⟩

/-- A reached statement gives the field of the shape a value. -/
structure Sets (root : Tree) (field : Field) (id : Id) (a : Assignment) : Prop where
  reached : ∃ scope l, Reached root scope l ∧ Gives scope l a
  field : a.field = field
  shape : scopeId a.shape = some id

/-- No other assignment to the field of the shape stands behind this one. -/
structure LastAssignment (root : Tree) (field : Field) (id : Id) (a : Assignment) : Prop where
  sets : Sets root field id a
  last : ∀ b, Sets root field id b → b = a ∨ b.value.stop ≤ a.value.start

/-- The entry keeps the last value that the shape is given, and nothing if it is given none. -/
structure KeepsLast (root : Tree) (field : Field) (e : OutlineShape) : Prop where
  unset : field.kept? e = none ↔ ∀ a, ¬Sets root field e.id a
  last : ∀ text, field.kept? e = some text ↔
    ∃ a, LastAssignment root field e.id a ∧ a.value.cooked = text

def labelAssignments (shape : List String) (label? : Option Tree) : List Assignment :=
  label?.toList.map (⟨shape, .label, ·⟩)

def propertyAssignments (scope : List String) (t : Tree) : List Assignment :=
  match t.key? with
  | none => []
  | some key =>
    match t.value?, Field.ofPath? key.keywordPath with
    | some v, some field => [⟨scope ++ key.targetPath, field, v⟩]
    | _, _ => []

mutual

def assignmentsIn (scope : List String) : Tree → List Assignment
  | .token _ => []
  | .node k s cs =>
    match k with
    | .document | .subShapeDefinition | .inlineShapeDefinition =>
      assignmentsOf NodeKind.isStatement scope cs
    | .shapeDefinition =>
      match (Tree.node k s cs).shapePath? with
      | none => []
      | some p =>
        labelAssignments (scope ++ p.segments) (Tree.node k s cs).label? ++
          assignmentsOf (· == .subShapeDefinition) (scope ++ p.segments) cs
    | .shapeConnection => assignmentsOf isEndpointBlock scope cs
    | .property => propertyAssignments scope (.node k s cs)
    | _ => []

def assignmentsOf (counts : NodeKind → Bool) (scope : List String) : List Tree → List Assignment
  | [] => []
  | c :: cs =>
    (if c.kind?.any counts then assignmentsIn scope c else []) ++ assignmentsOf counts scope cs

end

theorem mem_assignmentsOf {counts : NodeKind → Bool} {scope : List String} {xs : List Tree}
    {a : Assignment} :
    a ∈ assignmentsOf counts scope xs ↔
      ∃ x ∈ xs, x.kind?.any counts = true ∧ a ∈ assignmentsIn scope x := by
  induction xs with
  | nil => simp [assignmentsOf]
  | cons x xs ih =>
    rw [assignmentsOf, List.mem_append, ih]
    by_cases hx : x.kind?.any counts = true <;> simp [hx]

theorem ofPath_iff {path : List String} {field : Field} :
    Field.ofPath? path = some field ↔
      ∃ word, path = [word] ∧ Text.sameFolded word field.keyword = true := by
  -- no word is both keywords
  have apart {word : String} (hl : Text.sameFolded word "label" = true) :
      Text.sameFolded word "shape" = false := by
    simp only [Text.sameFolded, beq_iff_eq] at hl ⊢
    rw [hl]
    decide
  match path with
  | [] => simp [Field.ofPath?]
  | [word] =>
    have hword : (∃ w, [word] = [w] ∧ Text.sameFolded w field.keyword = true) ↔
        Text.sameFolded word field.keyword = true := by simp
    rw [hword]
    by_cases hl : Text.sameFolded word "label" = true
    · cases field <;> simp [Field.ofPath?, Field.keyword, hl, apart hl]
    · by_cases hs : Text.sameFolded word "shape" = true
      · cases field <;> simp [Field.ofPath?, Field.keyword, hl, hs]
      · cases field <;> simp [Field.ofPath?, Field.keyword, hl, hs]
  | _ :: _ :: _ => simp [Field.ofPath?]

theorem mem_propertyAssignments {scope : List String} {t : Tree} {a : Assignment} :
    a ∈ propertyAssignments scope t ↔
      ∃ key v, t.key? = some key ∧ t.value? = some v ∧
        Field.ofPath? key.keywordPath = some a.field ∧ a.shape = scope ++ key.targetPath ∧
          a.value = v := by
  unfold propertyAssignments
  obtain ⟨shape, field, value⟩ := a
  cases t.key? with
  | none => simp
  | some key =>
    cases t.value? with
    | none => simp
    | some v =>
      cases h : Field.ofPath? key.keywordPath with
      | none => simp [h]
      | some f => simp [h, eq_comm, and_comm, and_assoc]

def written? (field : Field) (id : Id) (a : Assignment) : Option String :=
  if a.field = field ∧ scopeId a.shape = some id then some a.value.cooked else none

def given? : Field → Id → Mention → Option String
  | .label => label?
  | .form => form?

theorem given_mention (field f : Field) (id shape : Id) (text : String) :
    given? field id (f.mention shape text) =
      if f = field ∧ shape = id then some text else none := by
  cases field <;> cases f <;> simp [given?, Field.mention, Entries.label?, Entries.form?]

theorem path_given (field : Field) (id : Id) (scope : Option Id) (segments : List String)
    (span : Span) : given? field id (.path scope segments span) = none := by
  cases field <;> rfl

theorem edges_given (field : Field) (id : Id) (es : List OutlineEdge) :
    (es.map Mention.edge).filterMap (given? field id) = [] := by
  rw [List.filterMap_map, List.filterMap_eq_nil_iff]
  intro e _
  cases field <;> rfl

theorem assigned_field (shape : Id) (path : List String) (value : String) :
    assigned shape path value = (Field.ofPath? path).toList.map fun f => f.mention shape value := by
  match path with
  | [] => rfl
  | [word] =>
    simp only [assigned, Field.ofPath?, Field.keyword]
    by_cases hl : Text.sameFolded word "label" = true
    · simp [hl, Field.mention]
    · by_cases hs : Text.sameFolded word "shape" = true <;> simp [hl, hs, Field.mention]
  | _ :: _ :: _ => rfl

theorem head_given (field : Field) (id : Id) (scope : List String) (p : Tree)
    (label : Option Tree) :
    (headMentions (scopeId scope) p label).filterMap (given? field id) =
      (labelAssignments (scope ++ p.segments) label).filterMap (written? field id) := by
  unfold headMentions
  rw [List.filterMap_cons_none (path_given field id _ _ _), resolve_scope]
  cases label with
  | none => cases scopeId (scope ++ p.segments) <;> rfl
  | some v =>
    have hgiven (shape : Id) : given? field id (.label shape v.cooked) = _ :=
      given_mention field .label id shape v.cooked
    cases hs : scopeId (scope ++ p.segments) <;>
      simp [labelAssignments, written?, List.filterMap_cons, hgiven, hs]

theorem property_given (field : Field) (id : Id) (scope : List String) (t : Tree) :
    (t.propertyMentions (scopeId scope)).filterMap (given? field id) =
      (propertyAssignments scope t).filterMap (written? field id) := by
  rw [propertyMentions, propertyAssignments]
  cases t.key? with
  | none => rfl
  | some key =>
    have hpath : (if key.targetPath = [] then [] else
        [Mention.path (scopeId scope) key.targetPath key.span]).filterMap (given? field id) =
          [] := by
      split
      · rfl
      · rw [List.filterMap_cons_none (path_given field id _ _ _), List.filterMap_nil]
    simp only [resolve_scope, List.filterMap_append, hpath, List.nil_append]
    cases t.value? with
    | none => cases scopeId (scope ++ key.targetPath) <;> rfl
    | some v =>
      cases hf : Field.ofPath? key.keywordPath with
      | none => cases scopeId (scope ++ key.targetPath) <;> simp [assigned_field, hf]
      | some f =>
        cases hs : scopeId (scope ++ key.targetPath) <;>
          simp [assigned_field, hf, written?, List.filterMap_cons, given_mention, hs]

theorem node_given {field : Field} {id : Id} {k : NodeKind} {s : Nat} {cs : List Tree}
    (ih : ∀ counts scope, (mentionsOf counts (scopeId scope) cs).filterMap (given? field id) =
      (assignmentsOf counts scope cs).filterMap (written? field id)) (scope : List String) :
    (mentions (scopeId scope) (.node k s cs)).filterMap (given? field id) =
      (assignmentsIn scope (.node k s cs)).filterMap (written? field id) := by
  cases k with
  | document | subShapeDefinition | inlineShapeDefinition => exact ih _ scope
  | shapeDefinition =>
    simp only [mentions, assignmentsIn]
    cases (Tree.node .shapeDefinition s cs).shapePath? with
    | none => rfl
    | some p =>
      simp only
      rw [List.filterMap_append, List.filterMap_append, head_given, resolve_scope, ih]
  | shapeConnection =>
    rw [mentions, assignmentsIn, List.filterMap_append, ih, edges_given, List.append_nil]
  | shapeId =>
    rw [mentions, List.filterMap_cons_none (path_given field id _ _ _)]
    rfl
  | property => exact property_given field id scope _
  | _ => rfl

theorem row_given (field : Field) (id : Id) (xs : List Tree) :
    ∀ (counts : NodeKind → Bool) (scope : List String),
      (mentionsOf counts (scopeId scope) xs).filterMap (given? field id) =
        (assignmentsOf counts scope xs).filterMap (written? field id) := by
  induction xs using forest_induction with
  | nil => exact fun _ _ => rfl
  | token t xs ih => exact ih
  | node k s cs xs ihc ih =>
    intro counts scope
    rw [mentionsOf, assignmentsOf, List.filterMap_append, List.filterMap_append, ih]
    congr 1
    split
    · exact node_given ihc scope
    · rfl

theorem assignments_list {l : Tree} (h : isList l = true) (scope : List String) :
    assignmentsIn scope l = assignmentsOf NodeKind.isStatement scope l.elements := by
  cases l with
  | token => simp [isList, isKind, kind?] at h
  | node k s cs => cases k <;> simp_all [isList, isKind, kind?] <;> rfl

theorem assignments_shape {d p : Tree} (h : d.kind? = some .shapeDefinition)
    (hp : d.shapePath? = some p) (scope : List String) :
    assignmentsIn scope d = labelAssignments (scope ++ p.segments) d.label? ++
      assignmentsOf (· == .subShapeDefinition) (scope ++ p.segments) d.elements := by
  obtain ⟨s, cs, rfl⟩ := node_of_kind h
  simp only [assignmentsIn, hp]
  rfl

theorem assignments_connection {c : Tree} (h : c.kind? = some .shapeConnection)
    (scope : List String) :
    assignmentsIn scope c = assignmentsOf isEndpointBlock scope c.elements := by
  obtain ⟨s, cs, rfl⟩ := node_of_kind h
  rw [assignmentsIn]
  rfl

theorem assignments_property {t : Tree} (h : t.kind? = some .property) (scope : List String) :
    assignmentsIn scope t = propertyAssignments scope t := by
  obtain ⟨s, cs, rfl⟩ := node_of_kind h
  rw [assignmentsIn]

theorem assignments_none {x : Tree} {k : NodeKind} (h : x.kind? = some k)
    (hk : k = .shapeId ∨ k = .error) (scope : List String) : assignmentsIn scope x = [] := by
  obtain ⟨s, cs, rfl⟩ := node_of_kind h
  rcases hk with rfl | rfl <;> rw [assignmentsIn] <;> simp

theorem statement_assigns {l : Tree} {s : Statement} {scope : List String}
    (hl : isList l = true) (h : s ∈ l.statements) {a : Assignment}
    (ha : a ∈ assignmentsIn scope s.tree) : a ∈ assignmentsIn scope l := by
  obtain ⟨hx, hk⟩ := mem_statements.mp h
  rw [assignments_list hl, mem_assignmentsOf]
  refine ⟨_, hx, ?_, ha⟩
  rw [hk]
  cases s <;> rfl

theorem gives_assigned {scope : List String} {l : Tree} {a : Assignment} (hl : isList l = true)
    (h : Gives scope l a) : a ∈ assignmentsIn scope l := by
  cases h with
  | label statement path label =>
    refine statement_assigns hl statement ?_
    rw [assignments_shape (mem_statements.mp statement).2 path]
    simp [labelAssignments, Statement.tree, label]
  | property statement path value keyword folded =>
    refine statement_assigns hl statement ?_
    rw [assignments_property (mem_statements.mp statement).2, mem_propertyAssignments]
    exact ⟨_, _, path, value, ofPath_iff.mpr ⟨_, keyword, folded⟩, rfl, rfl⟩

theorem opens_assigned {a b : List String × Tree} (hl : isList a.2 = true) (h : Opens a b) :
    ∀ x ∈ assignmentsIn b.1 b.2, x ∈ assignmentsIn a.1 a.2 := by
  intro x hx
  cases h with
  | block statement => exact statement_assigns hl statement hx
  | body statement path body =>
    obtain ⟨hb, hk⟩ := child_iff body
    refine statement_assigns hl statement ?_
    rw [assignments_shape (mem_statements.mp statement).2 path]
    exact List.mem_append_right _ (mem_assignmentsOf.mpr ⟨_, hb, by simp [hk], hx⟩)
  | inline statement endpoint =>
    obtain ⟨hb, hk⟩ := mem_endpoints.mp endpoint
    simp only [Endpoint.tree, endpointKind] at hb hk
    refine statement_assigns hl statement ?_
    rw [assignments_connection (mem_statements.mp statement).2]
    exact mem_assignmentsOf.mpr ⟨_, hb, by simp [hk, isEndpointBlock], hx⟩

theorem assigned_inside {scope : List String} {l : Tree} {a : Assignment} (hl : isList l = true)
    (hlaw : ∀ n ∈ l.nodes, Lawful n) (h : a ∈ assignmentsIn scope l) :
    Gives scope l a ∨ ∃ b, Opens (scope, l) b ∧ a ∈ assignmentsIn b.1 b.2 := by
  rw [assignments_list hl, mem_assignmentsOf] at h
  obtain ⟨x, hx, hk, ha⟩ := h
  obtain ⟨k, hkx, hk⟩ := (Option.any_eq_true _ _).mp hk
  have hxn : x ∈ l.nodes := nodes_element hx (node_self hkx)
  cases k with
  | shapeDefinition =>
    have hst : .shape x ∈ l.statements := mem_statements.mpr ⟨hx, hkx⟩
    obtain ⟨p, hp⟩ := Option.isSome_iff_exists.mp (lawful_shapePath (hlaw x hxn) hkx)
    rw [assignments_shape hkx hp] at ha
    rcases List.mem_append.mp ha with ha | ha
    · obtain ⟨v, hv, rfl⟩ := List.mem_map.mp ha
      exact .inl (.label hst hp (by simpa using hv))
    · obtain ⟨b, hb, hkb, ha⟩ := mem_assignmentsOf.mp ha
      exact .inr ⟨_, .body hst hp (body_only (hlaw x hxn) hkx hb (kind_of_any hkb)), ha⟩
  | shapeConnection =>
    have hst : .connection x ∈ l.statements := mem_statements.mpr ⟨hx, hkx⟩
    rw [assignments_connection hkx] at ha
    obtain ⟨b, hb, hkb, ha⟩ := mem_assignmentsOf.mp ha
    rcases endpoint_block hkb with hk | hk
    · simp [assignments_none hk (.inl rfl)] at ha
    · exact .inr ⟨_, .inline hst (mem_endpoints.mpr ⟨hb, hk⟩), ha⟩
  | property =>
    rw [assignments_property hkx, mem_propertyAssignments] at ha
    obtain ⟨key, v, hkey, hv, hfield, hshape, rfl⟩ := ha
    obtain ⟨word, hword, hfolded⟩ := ofPath_iff.mp hfield
    obtain ⟨shape, field, value⟩ := a
    obtain rfl : shape = _ := hshape
    exact .inl (.property (mem_statements.mpr ⟨hx, hkx⟩) hkey hv hword hfolded)
  | subShapeDefinition => exact .inr ⟨_, .block (mem_statements.mpr ⟨hx, hkx⟩), ha⟩
  | error => simp [assignments_none hkx (.inr rfl)] at ha
  | _ => simp [NodeKind.isStatement] at hk

theorem parse_assigned (text : String) (a : Assignment) :
    a ∈ assignmentsIn [] (parse text).tree ↔
      ∃ scope l, Reached (parse text).tree scope l ∧ Gives scope l a := by
  constructor
  · intro ha
    obtain ⟨⟨scope, l⟩, hreach, hgives⟩ :=
      comes_from (Q := fun b a => Gives b.1 b.2 a) (fun _ _ => assigned_inside)
        ([], (parse text).tree) a rfl (fun n hn => (parse_lawful text n hn).1) ha
    exact ⟨scope, l, hreach, hgives⟩
  · rintro ⟨scope, l, hreach, hgives⟩
    obtain ⟨hlist, hback⟩ := passes_back (P := fun b a => a ∈ assignmentsIn b.1 b.2)
      (fun _ _ x hopens hl => opens_assigned hl hopens x) hreach rfl
    exact hback a (gives_assigned hlist hgives)

theorem node_valued {k : NodeKind} {s : Nat} {cs : List Tree}
    (ih : ∀ counts scope, ∀ a ∈ assignmentsOf counts scope cs,
      a.value ∈ nodesAll cs ∧ a.value.kind? ≠ some .error) (scope : List String) :
    ∀ a ∈ assignmentsIn scope (.node k s cs),
      a.value ∈ nodesAll cs ∧ a.value.kind? ≠ some .error := by
  intro a ha
  cases k with
  | document | subShapeDefinition | inlineShapeDefinition | shapeConnection => exact ih _ _ a ha
  | shapeDefinition =>
    simp only [assignmentsIn] at ha
    split at ha
    · simp at ha
    · rcases List.mem_append.mp ha with ha | ha
      · obtain ⟨v, hv, rfl⟩ := List.mem_map.mp ha
        obtain ⟨hmem, hk⟩ := child_nodes (Option.mem_toList.mp hv)
        exact ⟨hmem, by simp [hk]⟩
      · exact ih _ _ a ha
  | property =>
    rw [assignmentsIn, mem_propertyAssignments] at ha
    obtain ⟨key, v, -, hv, -, -, rfl⟩ := ha
    obtain ⟨hmem, hk⟩ := child_nodes hv
    exact ⟨hmem, by simp [hk]⟩
  | _ => simp [assignmentsIn] at ha

theorem row_valued (xs : List Tree) : ∀ (counts : NodeKind → Bool) (scope : List String),
    ∀ a ∈ assignmentsOf counts scope xs,
      a.value ∈ nodesAll xs ∧ a.value.kind? ≠ some .error := by
  induction xs using forest_induction with
  | nil => simp [assignmentsOf]
  | token t xs ih => exact ih
  | node k s cs xs ihc ih =>
    intro counts scope a ha
    rw [assignmentsOf] at ha
    rcases List.mem_append.mp ha with ha | ha
    · split at ha
      · obtain ⟨hmem, hk⟩ := node_valued ihc scope a ha
        exact ⟨List.mem_append_left _ (List.mem_cons_of_mem _ hmem), hk⟩
      · simp at ha
    · obtain ⟨hmem, hk⟩ := ih counts scope a ha
      exact ⟨List.mem_append_right _ hmem, hk⟩

theorem label_first {cs before after : List Tree} {v : Tree} {w : List Symbol}
    (hs : signature cs = .node .shapeId :: w)
    (hw : Annotated .labelDefinition .subShapeDefinition w) (hcs : cs = before ++ v :: after)
    (hv : v.kind? = some .labelDefinition) :
    ∀ x ∈ before, x.kind? ≠ some .subShapeDefinition := by
  obtain ⟨l, b, rfl, hl, hb⟩ := hw
  intro x hx hk
  have hx : Symbol.node .subShapeDefinition ∈ signature before := mem_signature_node _ x _ hx hk
  have hlabel : Symbol.node .labelDefinition ∈ signature (v :: after) :=
    mem_signature_node _ v _ List.mem_cons_self hv
  have hrow : signature before ++ signature (v :: after) = (.node .shapeId :: l) ++ b := by
    rw [← signature_append, ← hcs, hs]
    rfl
  rcases List.append_eq_append_iff.mp hrow with ⟨mid, hhead, -⟩ | ⟨mid, -, hbody⟩
  · have hmem : Symbol.node .subShapeDefinition ∈ .node .shapeId :: l := by simp [hhead, hx]
    cases hl <;> simp at hmem
  · have hmem : Symbol.node .labelDefinition ∈ b := by simp [hbody, hlabel]
    cases hb <;> simp at hmem

theorem body_assigns {s : Nat} {cs : List Tree} {v : Tree} {scope : List String}
    (hl : Lawful (.node .shapeDefinition s cs))
    (hv : (Tree.node .shapeDefinition s cs).label? = some v) (hplaced : Placed s cs) :
    ∀ a ∈ assignmentsOf (· == .subShapeDefinition) scope cs, v.stop ≤ a.value.start := by
  obtain ⟨w, hw, hannotated⟩ := hl.conforms rfl
  obtain ⟨hkind, before, after, hcs, -⟩ := List.find?_eq_some_iff_append.mp hv
  have hkind : v.kind? = some .labelDefinition := by simpa [isKind] using hkind
  obtain rfl : cs = before ++ v :: after := hcs
  have hfirst := label_first hw hannotated rfl hkind
  intro a ha
  obtain ⟨x, hx, hk, ha⟩ := mem_assignmentsOf.mp ha
  have hsub : x.kind? = some .subShapeDefinition := kind_of_any hk
  have hbehind : x ∈ after := by
    rcases List.mem_append.mp hx with hx | hx
    · exact absurd hsub (hfirst x hx)
    · rcases List.mem_cons.mp hx with rfl | hx
      · simp [hkind] at hsub
      · exact hx
  have hmem := (row_valued after _ scope a (mem_assignmentsOf.mpr ⟨x, hbehind, hk, ha⟩)).1
  exact placed_before (placed_split hplaced).2 (node_self hkind) hmem

def Earlier (a b : Assignment) : Prop := a.value.stop ≤ b.value.start

theorem node_earlier {k : NodeKind} {s : Nat} {cs : List Tree} (hself : Lawful (.node k s cs))
    (hplaced : Placed s cs)
    (ih : ∀ counts scope, (assignmentsOf counts scope cs).Pairwise Earlier)
    (scope : List String) : (assignmentsIn scope (.node k s cs)).Pairwise Earlier := by
  cases k with
  | document | subShapeDefinition | inlineShapeDefinition | shapeConnection => exact ih _ scope
  | shapeDefinition =>
    simp only [assignmentsIn]
    split
    · exact List.Pairwise.nil
    · rw [List.pairwise_append]
      refine ⟨?_, ih _ _, ?_⟩
      · unfold labelAssignments
        cases (Tree.node .shapeDefinition s cs).label? <;> simp
      · intro a ha b hb
        obtain ⟨v, hv, rfl⟩ := List.mem_map.mp ha
        exact body_assigns hself (Option.mem_toList.mp hv) hplaced b hb
  | property =>
    rw [assignmentsIn, propertyAssignments]
    split
    · exact List.Pairwise.nil
    · split
      · exact List.pairwise_singleton _ _
      · exact List.Pairwise.nil
  | _ => exact List.Pairwise.nil

theorem row_earlier (xs : List Tree) : ∀ (offset : Nat), Placed offset xs →
    (∀ n ∈ nodesAll xs, Lawful n) → ∀ (counts : NodeKind → Bool) (scope : List String),
      (assignmentsOf counts scope xs).Pairwise Earlier := by
  induction xs using forest_induction with
  | nil => exact fun _ _ _ _ _ => List.Pairwise.nil
  | token t xs ih => exact fun offset hp hs => ih t.stop ((placed_token offset t xs).mp hp).2 hs
  | node k s cs xs ihc ih =>
    intro offset hp hlaw counts scope
    obtain ⟨rfl, hc, hx⟩ := (placed_node offset k s cs xs).mp hp
    have hself : Lawful (.node k s cs) := hlaw _ List.mem_cons_self
    have hcs : ∀ n ∈ nodesAll cs, Lawful n := fun n hn =>
      hlaw n (List.mem_append_left _ (List.mem_cons_of_mem _ hn))
    have hxs : ∀ n ∈ nodesAll xs, Lawful n := fun n hn => hlaw n (List.mem_append_right _ hn)
    rw [assignmentsOf, List.pairwise_append]
    refine ⟨?_, ih _ hx hxs counts scope, ?_⟩
    · split
      · exact node_earlier hself hc (ihc s hc hcs) scope
      · exact List.Pairwise.nil
    · intro a ha b hb
      split at ha
      · have hvalue := (node_valued (row_valued cs) scope a ha).1
        exact placed_before hp (List.mem_cons_of_mem _ hvalue) (row_valued xs counts scope b hb).1
      · simp at ha

theorem parse_earlier (text : String) : (assignmentsIn [] (parse text).tree).Pairwise Earlier :=
  row_earlier _ 0 (Lossless.document_placed text).1
    (fun n hn => (parse_lawful text n (List.mem_cons_of_mem _ hn)).1) _ []

theorem parse_valued (text : String) {a : Assignment}
    (ha : a ∈ assignmentsIn [] (parse text).tree) : a.value.start < a.value.stop := by
  obtain ⟨hmem, hk⟩ := row_valued _ _ [] a ha
  exact parse_wide text hmem hk

theorem last_latest {as : List Assignment} (h : as.Pairwise Earlier)
    (hwide : ∀ a ∈ as, a.value.start < a.value.stop) (a : Assignment) :
    as.getLast? = some a ↔ a ∈ as ∧ ∀ b ∈ as, b = a ∨ b.value.stop ≤ a.value.start := by
  rcases List.eq_nil_or_concat' as with rfl | ⟨init, last, rfl⟩
  · simp
  · rw [List.pairwise_append] at h
    have hbefore : ∀ b ∈ init, b.value.stop ≤ last.value.start := fun b hb =>
      h.2.2 b hb last (List.mem_singleton.mpr rfl)
    rw [List.getLast?_concat, Option.some.injEq]
    constructor
    · rintro rfl
      refine ⟨by simp, fun b hb => ?_⟩
      rcases List.mem_append.mp hb with hb | hb
      · exact .inr (hbefore b hb)
      · exact .inl (List.mem_singleton.mp hb)
    · rintro ⟨ha, hlast⟩
      rcases List.mem_append.mp ha with hinit | ha
      · refine (hlast last (by simp)).resolve_right fun hbehind => ?_
        have hlarge := hbefore a hinit
        have hlast := hwide last (by simp)
        have hfirst := hwide a ha
        omega
      · exact (List.mem_singleton.mp ha).symm

theorem written_last (field : Field) (id : Id) (as : List Assignment) :
    (as.filterMap (written? field id)).getLast? =
      (as.filter fun a => a.field = field ∧ scopeId a.shape = some id).getLast?.map
        (·.value.cooked) := by
  rw [← List.getLast?_map, ← List.filterMap_eq_map, List.filterMap_filter]
  exact congrArg List.getLast? (List.filterMap_congr fun a _ => by simp [written?])

theorem entry_written (text : String) {e : OutlineShape}
    (he : e ∈ (Outline.ofTree (parse text).tree).shapes) (field : Field) :
    field.kept? e =
      ((assignmentsIn [] (parse text).tree).filterMap (written? field e.id)).getLast? := by
  rw [outline_entries] at he
  obtain ⟨m, -, rfl⟩ := List.mem_map.mp he
  have hgiven : ((parse text).tree.mentions none).filterMap (given? field m.id) =
      (assignmentsIn [] (parse text).tree).filterMap (written? field m.id) :=
    node_given (row_given field m.id _) []
  rw [entry, ← hgiven]
  cases field <;> rfl

/-- Every shape of an outline keeps the label and the form that it is given last. -/
theorem outline_keeps_last (text : String) {e : OutlineShape}
    (he : e ∈ (Outline.ofTree (parse text).tree).shapes) (field : Field) :
    KeepsLast (parse text).tree field e := by
  have hkept := entry_written text he field
  rw [written_last] at hkept
  have hsets (a : Assignment) : a ∈ (assignmentsIn [] (parse text).tree).filter
      (fun a => a.field = field ∧ scopeId a.shape = some e.id) ↔
        Sets (parse text).tree field e.id a := by
    rw [List.mem_filter, parse_assigned, decide_eq_true_iff]
    exact ⟨fun h => ⟨h.1, h.2.1, h.2.2⟩, fun h => ⟨h.reached, h.field, h.shape⟩⟩
  have hordered := (parse_earlier text).filter
    fun a => a.field = field ∧ scopeId a.shape = some e.id
  have hwide : ∀ a ∈ (assignmentsIn [] (parse text).tree).filter
      (fun a => a.field = field ∧ scopeId a.shape = some e.id), a.value.start < a.value.stop :=
    fun a ha => parse_valued text (List.mem_filter.mp ha).1
  constructor
  · rw [hkept, Option.map_eq_none_iff, List.getLast?_eq_none_iff, List.eq_nil_iff_forall_not_mem]
    exact forall_congr' fun a => not_congr (hsets a)
  · intro value
    rw [hkept, Option.map_eq_some_iff]
    refine exists_congr fun a => and_congr_left fun _ => ?_
    rw [last_latest hordered hwide, hsets]
    constructor
    · rintro ⟨ha, hlast⟩
      exact ⟨ha, fun b hb => hlast b ((hsets b).mpr hb)⟩
    · rintro ⟨ha, hlast⟩
      exact ⟨ha, fun b hb => hlast b ((hsets b).mp hb)⟩

theorem bare_block_last :
    let root := (parse "a: one {label: two}; {a.Label: three}").tree
    let e := (Outline.ofTree root).shapes.get ⟨0, by decide +kernel⟩
    e ∈ (Outline.ofTree root).shapes ∧ e.label = some "three" ∧ KeepsLast root .label e := by
  intro root e
  have he : e ∈ (Outline.ofTree root).shapes := List.get_mem _ _
  exact ⟨he, by decide +kernel,
    outline_keeps_last "a: one {label: two}; {a.Label: three}" he .label⟩

end DiagramText.Assignments
