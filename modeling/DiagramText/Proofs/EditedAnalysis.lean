import DiagramText.Proofs.EditedReading

/-!
# Outlines and checks of an edited tree

Where every node of a tree is legible after an edit, the edited tree makes
the same mentions in the same order, so that its outline lists the same
shapes and edges, and the checks find the same faults. Only places differ.
-/

set_option autoImplicit false

namespace DiagramText.EditedAnalysis
open DiagramText.Tree Layout Reach Widths Edit Outline Validation
open Mention (resolve)
open Entries (unplaced)

variable {e : Edit}

/-- An entry without its place. -/
def face (s : OutlineShape) : Id × Option String × Option String := (s.id, s.label, s.form)

/-- An edge without its place. -/
def edgeFace (d : OutlineEdge) : Id × Connector × Id × Option String :=
  (d.source, d.connector, d.target, d.label)

/-- Two outlines list the same entries and edges, maybe at other places. -/
structure Agree (o p : Outline) : Prop where
  shapes : o.shapes.map face = p.shapes.map face
  edges : o.edges.map edgeFace = p.edges.map edgeFace

section

variable {o p : Outline}

theorem agree_found (h : Agree o p) (id : Id) :
    (o.shape? id).isSome = (p.shape? id).isSome := by
  have hids (q : Outline) : (q.shape? id).isSome = (q.shapes.map face).any (·.1 == id) := by
    rw [shape?, List.isSome_find?, List.any_map]
    rfl
  rw [hids, hids, h.shapes]

theorem agree_declare (h : Agree o p) (s t : Span) (id : Id) :
    Agree (o.declare s id) (p.declare t id) := by
  unfold declare
  rw [agree_found h id]
  split
  · exact h
  · refine ⟨?_, h.edges⟩
    rw [List.map_append, List.map_append, h.shapes]
    rfl

theorem agree_update {f : OutlineShape → OutlineShape}
    (hf : ∀ a b, face a = face b → face (f a) = face (f b)) (h : Agree o p) (id : Id) :
    Agree (o.update id f) (p.update id f) := by
  have hdeclared := agree_declare h {} {} id
  refine ⟨?_, hdeclared.edges⟩
  have hfaces := hdeclared.shapes
  simp only [update]
  generalize (o.declare {} id).shapes = xs, (p.declare {} id).shapes = ys at *
  induction xs generalizing ys with
  | nil => simpa using hfaces
  | cons x xs ih =>
    cases ys with
    | nil => simp at hfaces
    | cons y ys =>
      obtain ⟨hhead, hrest⟩ := List.cons.inj hfaces
      have hid : x.id = y.id := congrArg Prod.fst hhead
      rw [List.map_cons, List.map_cons, List.map_cons, List.map_cons, ih ys hrest, hid]
      split
      · rw [hf x y hhead]
      · rw [hhead]

theorem agree_declares (h : Agree o p) (s t : Span) (ids : List Id) :
    Agree (ids.foldl (declare s) o) (ids.foldl (declare t) p) := by
  induction ids generalizing o p with
  | nil => exact h
  | cons id ids ih => exact ih (agree_declare h s t id)

theorem agree_add (h : Agree o p) (m : Mention) : Agree (o.add m) (p.add (unplaced m)) := by
  cases m with
  | path scope segments span => exact agree_declares h _ _ _
  | label id text | form id name =>
    refine agree_update (fun a b hab => ?_) h id
    simp only [face, Prod.mk.injEq] at hab ⊢
    simp [hab]
  | edge d =>
    refine ⟨h.shapes, ?_⟩
    show (o.edges ++ [d]).map edgeFace = (p.edges ++ [_]).map edgeFace
    rw [List.map_append, List.map_append, h.edges]
    rfl

theorem agree_unplaced (h : Agree o p) (ms : List Mention) :
    Agree (ms.foldl add o) ((ms.map unplaced).foldl add p) := by
  induction ms generalizing o p with
  | nil => exact h
  | cons m ms ih => exact ih (agree_add h m)

end

theorem outline_agree {ms ns : List Mention} (h : ms.map unplaced = ns.map unplaced) :
    Agree (ofMentions ms) (ofMentions ns) := by
  have hms := @agree_unplaced {} {} ⟨rfl, rfl⟩ ms
  have hns := @agree_unplaced {} {} ⟨rfl, rfl⟩ ns
  rw [h] at hms
  exact ⟨hms.shapes.trans hns.shapes.symm, hms.edges.trans hns.edges.symm⟩

theorem alike_connector {k l : TokenKind} (h : Alike k l) : l.connector? = k.connector? := by
  rcases h with rfl | ⟨hk, hl⟩
  · rfl
  · rcases break_cases hk with rfl | rfl <;> rcases break_cases hl with rfl | rfl <;> rfl

theorem trivia_connector {k : TokenKind} (h : k.isTrivia = true) : k.connector? = none := by
  cases k <;> simp_all [TokenKind.isTrivia, TokenKind.connector?]

theorem connectors_edited {n : Tree} (h : Legible e n) : (e.node n).connectors = n.connectors := by
  cases n with
  | token => rfl
  | node k s cs =>
    have htokens := h.tokens
    show ((e.trees cs).filterMap token?).filterMap _ = (cs.filterMap token?).filterMap _
    rw [tokens] at htokens
    clear h
    induction cs with
    | nil => rfl
    | cons x cs ih =>
      rw [tokensAll, List.forall_mem_append] at htokens
      have ih := ih htokens.2
      cases x with
      | node l t xs => exact ih
      | token t =>
        rcases htokens.1 t List.mem_cons_self with ⟨u, hu, hk⟩ | ⟨hn, htrivia⟩
        · rw [trees, tree, hu]
          show ((Tree.token u :: e.trees cs).filterMap token?).filterMap _ = _
          simp only [List.filterMap_cons, token?, alike_connector hk, ih]
        · rw [trees, tree, hn]
          simp only [List.filterMap_cons, token?, trivia_connector htrivia]
          exact ih

theorem filterMap_edited {α : Type} {f : Tree → Option α} (ht : ∀ t, f (.token t) = none)
    {xs : List Tree} (h : ∀ x ∈ xs, f (e.node x) = f x) :
    (e.trees xs).filterMap f = xs.filterMap f := by
  induction xs with
  | nil => rfl
  | cons x xs ih =>
    obtain ⟨hhead, hrest⟩ := List.forall_mem_cons.mp h
    rw [trees, List.filterMap_append, ih hrest]
    cases x with
    | token t => cases htoken : e.token t <;> simp [tree, htoken, ht]
    | node k s cs =>
      show [e.node (.node k s cs)].filterMap f ++ _ = _
      rw [List.filterMap_cons, hhead, List.filterMap_cons]
      cases f (.node k s cs) <;> rfl

theorem endpoint_edited {x : Tree} (h : Legible e x) (scope : Option Id) :
    (Endpoint.ofTree? (e.node x)).map (endpointId? scope) =
      (Endpoint.ofTree? x).map (endpointId? scope) := by
  rw [Endpoint.ofTree?, Endpoint.ofTree?, node_kind]
  cases hk : x.kind? with
  | none => rfl
  | some k =>
    cases k with
    | shapeId =>
      have hsegments := h.segments (by simp [hk, isPath])
      simp only [Option.map_some, endpointId?, hsegments]
    | _ => rfl

theorem cooked_cases {v w : Option Tree} (hv : w.map Tree.cooked = v.map Tree.cooked) :
    v = none ∧ w = none ∨ ∃ a b, v = some a ∧ w = some b ∧ b.cooked = a.cooked := by
  cases v <;> cases w <;> simp_all

section

variable {n : Tree} (h : ∀ x ∈ n.nodes, Legible e x) (scope : Option Id)

include h

theorem endpoints_edited : (e.node n).endpoints.map (endpointId? scope) =
    n.endpoints.map (endpointId? scope) := by
  cases n with
  | token => rfl
  | node k s cs =>
    show ((e.trees cs).filterMap _).map _ = (cs.filterMap _).map _
    rw [List.map_filterMap, List.map_filterMap]
    refine filterMap_edited (fun t => rfl) fun x hx => ?_
    cases x with
    | token => rfl
    | node l t xs =>
      exact endpoint_edited (h _ (nodes_element hx List.mem_cons_self)) scope

theorem child_legible {k : NodeKind} {x : Tree} (hx : n.child? k = some x) :
    Legible e x ∧ x.kind? = some k := by
  obtain ⟨hmem, hk⟩ := child_iff hx
  exact ⟨h x (nodes_element hmem (node_self hk)), hk⟩

theorem key_cases : n.key? = none ∧ (e.node n).key? = none ∨
    ∃ key, n.key? = some key ∧ (e.node n).key? = some (e.node key) ∧ Legible e key ∧
      key.kind?.any isPath = true := by
  rw [key?, key?, child_edited]
  cases hkey : n.child? .propertyKey with
  | none => exact .inl ⟨rfl, rfl⟩
  | some key =>
    obtain ⟨hlegible, hkind⟩ := child_legible h hkey
    exact .inr ⟨key, rfl, rfl, hlegible, by simp [hkind, isPath]⟩

theorem cooked_edited {k : NodeKind} (hk : k = .labelDefinition ∨ k = .attributeValue) :
    ((e.node n).child? k).map Tree.cooked = (n.child? k).map Tree.cooked := by
  rw [child_edited]
  cases hx : n.child? k with
  | none => rfl
  | some x =>
    obtain ⟨hlegible, hkind⟩ := child_legible h hx
    exact congrArg some (hlegible.cooked (by rcases hk with rfl | rfl <;> simp [hkind]))

theorem edges_edited :
    (((e.node n).namedEdges scope).map Mention.edge).map unplaced =
      ((n.namedEdges scope).map Mention.edge).map unplaced := by
  cases n with
  | token => rfl
  | node k s cs =>
    have hlabel : (e.node (.node k s cs)).label?.map Tree.cooked =
        (Tree.node k s cs).label?.map Tree.cooked := cooked_edited h (.inl rfl)
    rw [namedEdges, namedEdges, connectors_edited (h _ List.mem_cons_self),
      endpoints_edited h scope, hlabel]
    simp only [List.map_filterMap]
    refine List.filterMap_congr fun d _ => ?_
    obtain ⟨c, source, target⟩ := d
    cases source <;> cases target <;> rfl

theorem property_edited : ((e.node n).propertyMentions scope).map unplaced =
    (n.propertyMentions scope).map unplaced := by
  have hvalue : (e.node n).value?.map Tree.cooked = n.value?.map Tree.cooked :=
    cooked_edited h (.inr rfl)
  unfold propertyMentions
  rcases key_cases h with ⟨hkey, hkey'⟩ | ⟨key, hkey, hkey', hlegible, hpath⟩
  · rw [hkey, hkey']
  · rw [hkey, hkey']
    simp only [hlegible.targetPath hpath, hlegible.keywordPath hpath, List.map_append]
    congr 1
    · split <;> rfl
    · rcases cooked_cases hvalue with ⟨hv, hw⟩ | ⟨v, w, hv, hw, hcooked⟩
      · rw [hv, hw]
      · rw [hv, hw]
        cases resolve scope key.targetPath <;> simp only [hcooked]

theorem head_edited {path : Tree} (hpath : n.shapePath? = some path) :
    (headMentions scope (e.node path) (e.node n).label?).map unplaced =
      (headMentions scope path n.label?).map unplaced := by
  obtain ⟨hlegible, hkind⟩ := child_legible h hpath
  have hsegments := hlegible.segments (by simp [hkind, isPath])
  have hlabel : (e.node n).label?.map Tree.cooked = n.label?.map Tree.cooked :=
    cooked_edited h (.inl rfl)
  unfold headMentions
  rw [hsegments, List.map_cons, List.map_cons]
  congr 1
  rcases cooked_cases hlabel with ⟨hl, hw⟩ | ⟨l, w, hl, hw, hcooked⟩
  · rw [hl, hw]
  · rw [hl, hw]
    cases resolve scope path.segments <;> simp only [hcooked]

end

theorem node_mentions_edited {k : NodeKind} {s : Nat} {cs : List Tree}
    (h : ∀ x ∈ (Tree.node k s cs).nodes, Legible e x)
    (ih : ∀ counts scope, (mentionsOf counts scope (e.trees cs)).map unplaced =
      (mentionsOf counts scope cs).map unplaced) (scope : Option Id) :
    (mentions scope (e.node (.node k s cs))).map unplaced =
      (mentions scope (.node k s cs)).map unplaced := by
  cases k with
  | document | subShapeDefinition | inlineShapeDefinition => exact ih _ scope
  | shapeDefinition =>
    have hfind : (e.node (.node .shapeDefinition s cs)).shapePath? =
        (Tree.node .shapeDefinition s cs).shapePath?.map e.node := child_edited .shapeId _
    simp only [Edit.node] at hfind
    simp only [Edit.node, mentions, hfind]
    cases hpath : (Tree.node .shapeDefinition s cs).shapePath? with
    | none => rfl
    | some path =>
      have hhead := head_edited h scope hpath
      obtain ⟨hlegible, hkind⟩ := child_legible h hpath
      have hsegments := hlegible.segments (by simp [hkind, isPath])
      simp only [Option.map_some, List.map_append, ih, hsegments]
      exact congrArg (· ++ _) hhead
  | shapeConnection =>
    have hedges := edges_edited h scope
    simp only [Edit.node] at hedges
    simp only [Edit.node, mentions, List.map_append, ih, hedges]
  | shapeId =>
    have hsegments := (h _ List.mem_cons_self).segments rfl
    simp only [Edit.node] at hsegments
    simp only [Edit.node, mentions, hsegments]
    rfl
  | property => exact property_edited h scope
  | _ => rfl

theorem row_mentions_edited (xs : List Tree) (h : ∀ x ∈ nodesAll xs, Legible e x) :
    ∀ (counts : NodeKind → Bool) (scope : Option Id),
      (mentionsOf counts scope (e.trees xs)).map unplaced =
        (mentionsOf counts scope xs).map unplaced := by
  induction xs using forest_induction with
  | nil => exact fun _ _ => rfl
  | token t xs ih =>
    intro counts scope
    have ih := ih h counts scope
    rw [trees, tree]
    cases e.token t <;> exact ih
  | node k s cs xs ihc ih =>
    intro counts scope
    rw [nodesAll, List.forall_mem_append] at h
    have hnode := node_mentions_edited h.1
      (ihc fun x hx => h.1 x (List.mem_cons_of_mem _ hx)) scope
    have hrest := ih h.2 counts scope
    show (mentionsOf counts scope (e.node (.node k s cs) :: e.trees xs)).map unplaced = _
    rw [mentionsOf, mentionsOf, List.map_append, List.map_append, hrest]
    congr 1
    show (if _ then _ else _ : List Mention).map unplaced = _
    rw [node_kind]
    split
    · exact hnode
    · rfl

theorem outline_edited {n : Tree} (h : ∀ x ∈ n.nodes, Legible e x) :
    Agree (ofTree (e.node n)) (ofTree n) := by
  apply outline_agree
  cases n with
  | token => rfl
  | node k s cs =>
    exact node_mentions_edited h
      (row_mentions_edited cs fun x hx => h x (List.mem_cons_of_mem _ hx)) none

/-- What a diagnostic says, wherever it points. -/
def verdict (d : Diagnostic) : Severity × Option Code × String := (d.severity, d.code, d.message)

section

variable {n : Tree} (palette : Palette) (checks : Checks) (owner : Owner)

theorem full_path_edited {key : Tree} (h : Legible e key) (hk : key.kind?.any isPath = true) :
    fullPath owner (e.node key) = fullPath owner key := by
  cases owner <;> simp only [fullPath, h.segments hk, h.keywordPath hk]

theorem connection_key_edited {key : Tree} (h : Legible e key)
    (hk : key.kind?.any isPath = true) :
    (checkConnectionKey (e.node key)).map verdict = (checkConnectionKey key).map verdict := by
  unfold checkConnectionKey
  rw [h.segments hk]
  cases key.segments with
  | nil => rfl
  | cons first rest =>
    simp only
    split <;> rfl

theorem path_edited {v w : Option Tree} (hv : w.map Tree.cooked = v.map Tree.cooked)
    (path : List String) (key key' : Tree) :
    (checkPath palette checks path key' w).map verdict =
      (checkPath palette checks path key v).map verdict := by
  unfold checkPath checkStyle checkShape
  rcases cooked_cases hv with ⟨rfl, rfl⟩ | ⟨v, w, rfl, rfl, hcooked⟩
  · split
    · split <;> rfl
    · split <;> rfl
  · simp only [hcooked]
    split
    · split
      · rfl
      · split <;> rfl
    · split
      · split
        · split <;> rfl
        · split <;> rfl
      · rfl

theorem check_edited (h : ∀ x ∈ n.nodes, Legible e x) :
    (checkProperty palette checks owner (e.node n)).map verdict =
      (checkProperty palette checks owner n).map verdict := by
  have hvalue : (e.node n).value?.map Tree.cooked = n.value?.map Tree.cooked :=
    cooked_edited h (.inr rfl)
  unfold checkProperty
  rcases key_cases h with ⟨hkey, hkey'⟩ | ⟨key, hkey, hkey', hlegible, hpath⟩
  · rw [hkey, hkey']
  · rw [hkey, hkey']
    simp only [List.map_append, full_path_edited owner hlegible hpath]
    congr 1
    · split
      · exact connection_key_edited hlegible hpath
      · rfl
    · exact path_edited palette checks hvalue _ _ _

theorem owner_edited (h : ∀ x ∈ n.nodes, Legible e x) :
    ownerBelow owner (e.node n) = ownerBelow owner n := by
  unfold ownerBelow
  rw [node_kind]
  split
  · rcases key_cases h with ⟨hkey, hkey'⟩ | ⟨key, hkey, hkey', hlegible, hpath⟩
    · rw [hkey, hkey']
    · rw [hkey, hkey']
      exact congrArg Owner.property (full_path_edited owner hlegible hpath)
  all_goals rfl

theorem row_checked (xs : List Tree) (h : ∀ x ∈ nodesAll xs, Legible e x) :
    ∀ owner, (diagnosticsAll palette checks owner (e.trees xs)).map verdict =
      (diagnosticsAll palette checks owner xs).map verdict := by
  induction xs using forest_induction with
  | nil => exact fun _ => rfl
  | token t xs ih =>
    intro owner
    have ih := ih h owner
    rw [trees, tree]
    cases e.token t <;> exact ih
  | node k s cs xs ihc ih =>
    intro owner
    rw [nodesAll, List.forall_mem_append] at h
    have hchecked := check_edited palette checks owner h.1
    have howner := owner_edited owner h.1
    show (diagnosticsAll palette checks owner
      (e.node (.node k s cs) :: e.trees xs)).map verdict = _
    simp only [Edit.node] at hchecked howner
    simp only [Edit.node, diagnosticsAll, diagnosticsUnder, List.map_append, ih h.2 owner, howner,
      ihc fun x hx => h.1 x (List.mem_cons_of_mem _ hx)]
    congr 2
    split
    · exact hchecked
    · rfl

end

theorem validate_edited {n : Tree} (palette : Palette) (checks : Checks)
    (h : ∀ x ∈ n.nodes, Legible e x) :
    (validate palette checks (e.node n)).map verdict = (validate palette checks n).map verdict := by
  have hrow := row_checked palette checks [n] (by simpa [nodesAll] using h) .nothing
  cases n with
  | token => rfl
  | node k s cs => simpa [trees, tree, Edit.node, diagnosticsAll, validate] using hrow

end DiagramText.EditedAnalysis
