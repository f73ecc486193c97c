import DiagramText.Proofs.Shapes

/-!
# The edges of an outline

Two pairings of connectors with endpoints agree: the edges of a connection,
cut down to those between named shapes, are what the outline draws for it,
whatever ends are missing or inline and however the edges of inline blocks
come in between. Every edge of the outline is drawn in this way and joins two
shapes that are listed.
-/

set_option autoImplicit false

namespace DiagramText.Edges
open Entries Mentions Reach WalkOrder Shapes DiagramText.Tree

def drawn (scope : List String) (c : Tree) (e : Edge) : Option OutlineEdge :=
  match e.source, e.target with
  | .shape p, .shape q =>
    some ⟨idOf (scope ++ p.segments), e.connector, idOf (scope ++ q.segments),
      c.label?.map (·.cooked), c.span⟩
  | _, _ => none

theorem adjacent_map {α β : Type} (f : α → β) (xs : List α) :
    adjacent (xs.map f) = (adjacent xs).map (Prod.map f f) := by
  induction xs with
  | nil => rfl
  | cons x xs ih =>
    cases xs with
    | nil => rfl
    | cons y ys =>
      simp only [List.map_cons, adjacent] at ih ⊢
      rw [ih]
      rfl

theorem mem_adjacent {α : Type} {xs : List α} {a b : α} (h : (a, b) ∈ adjacent xs) :
    a ∈ xs ∧ b ∈ xs := by
  induction xs with
  | nil => simp [adjacent] at h
  | cons x xs ih =>
    cases xs with
    | nil => simp [adjacent] at h
    | cons y ys =>
      rw [adjacent, List.mem_cons, Prod.mk.injEq] at h
      rcases h with ⟨rfl, rfl⟩ | h
      · simp
      · exact ⟨List.mem_cons_of_mem _ (ih h).1, List.mem_cons_of_mem _ (ih h).2⟩

theorem endpoint_id {scope : List String} {p : Tree} (h : p.segments ≠ []) :
    endpointId? (scopeId scope) (.shape p) = some (idOf (scope ++ p.segments)) := by
  rw [endpointId?, resolve_scope, scopeId, if_neg (by simp [h])]

theorem named_drawn {c : Tree} (scope : List String)
    (h : ∀ p, .shape p ∈ c.endpoints → p.segments ≠ []) :
    c.namedEdges (scopeId scope) = c.edges.filterMap (drawn scope c) := by
  rw [namedEdges, edges, adjacent_map, List.zip_map_right, List.filterMap_map, List.filterMap_map]
  refine List.filterMap_congr fun e he => ?_
  obtain ⟨connector, source, target⟩ := e
  obtain ⟨hs, ht⟩ := mem_adjacent (List.of_mem_zip he).2
  simp only [Function.comp_apply, Prod.map_apply, id_eq, drawn]
  cases source with
  | shape p =>
    rw [endpoint_id (h p hs)]
    cases target with
    | shape q => rw [endpoint_id (h q ht)]
    | _ => rfl
  | _ => rfl

def sightEdges (s : Sight) : List OutlineEdge := s.mentions.filterMap edge?

theorem walk_edges (root : Tree) :
    (Outline.ofTree root).edges = (walk [] root).flatMap sightEdges := by
  rw [Outline.ofTree, edges_mentioned, tree_mentions, List.filterMap_flatMap]
  rfl

theorem chain_edges (scope : List String) (c : Tree) :
    sightEdges (.chain scope c) = c.namedEdges (scopeId scope) := by
  rw [sightEdges, Sight.mentions, List.filterMap_map]
  exact List.filterMap_some

theorem mem_sightEdges {s : Sight} {e : OutlineEdge} (h : e ∈ sightEdges s) :
    ∃ scope c, s = .chain scope c := by
  cases s with
  | chain scope c => exact ⟨scope, c, rfl⟩
  | path scope segments p => simp [sightEdges, Sight.mentions, edge?] at h
  | label shape text | form shape text =>
    cases hs : scopeId shape <;> simp [sightEdges, Sight.mentions, edge?, hs] at h

theorem named_span {c : Tree} {scope : Option Id} {e : OutlineEdge} (h : e ∈ c.namedEdges scope) :
    e.span = c.span := by
  obtain ⟨x, -, hx⟩ := List.mem_filterMap.mp h
  split at hx
  · obtain rfl := Option.some.inj hx
    rfl
  · simp at hx

theorem shows_chain {scope scope' : List String} {l c : Tree}
    (h : Shows scope l (.chain scope' c)) : scope' = scope ∧ .connection c ∈ l.statements := by
  cases h with
  | chain statement => exact ⟨rfl, statement⟩
  | assigned _ _ _ sight => simpa [place?] using assignments_nowhere _ sight

theorem edges_at {sights : List Sight} (h : sights.Pairwise Apart) {scope : List String} {c : Tree}
    (hc : .chain scope c ∈ sights) :
    (sights.flatMap sightEdges).filter (·.span = c.span) = c.namedEdges (scopeId scope) := by
  have other {d : Sight} (hd : Apart d (.chain scope c) ∨ Apart (.chain scope c) d) :
      (sightEdges d).filter (·.span = c.span) = [] := by
    rw [List.filter_eq_nil_iff]
    intro e he hspan
    obtain ⟨scope', c', rfl⟩ := mem_sightEdges he
    rw [chain_edges] at he
    have hstart : c'.start = c.start := by
      have hspan : e.span = c.span := by simpa using hspan
      exact congrArg Span.start ((named_span he).symm.trans hspan)
    rcases hd with hd | hd
    · exact hd hstart
    · exact hd hstart.symm
  obtain ⟨before, after, rfl⟩ := List.append_of_mem hc
  rw [List.pairwise_append, List.pairwise_cons] at h
  obtain ⟨-, ⟨hafter, -⟩, hbefore⟩ := h
  have hb : (before.flatMap sightEdges).filter (·.span = c.span) = [] := by
    rw [List.filter_flatMap, List.flatMap_eq_nil_iff]
    exact fun d hd => other (.inl (hbefore d hd _ List.mem_cons_self))
  have ha : (after.flatMap sightEdges).filter (·.span = c.span) = [] := by
    rw [List.filter_flatMap, List.flatMap_eq_nil_iff]
    exact fun d hd => other (.inr (hafter d hd))
  have hself : (sightEdges (.chain scope c)).filter (·.span = c.span) =
      c.namedEdges (scopeId scope) := by
    rw [chain_edges, List.filter_eq_self]
    exact fun e he => by simpa using named_span he
  rw [List.flatMap_append, List.flatMap_cons, List.filter_append, List.filter_append, hb, ha, hself]
  simp

theorem reached_drawn {text : String} {scope : List String} {l c : Tree}
    (hreach : Reached (parse text).tree scope l) (hc : .connection c ∈ l.statements) :
    c.namedEdges (scopeId scope) = c.edges.filterMap (drawn scope c) :=
  named_drawn scope fun _ hp => names_segments hreach (.endpoint hc hp)

theorem drawn_ends {scope : List String} {c : Tree} {e : OutlineEdge}
    (h : e ∈ c.edges.filterMap (drawn scope c)) :
    ∃ p q, .shape p ∈ c.endpoints ∧ .shape q ∈ c.endpoints ∧
      e.source = idOf (scope ++ p.segments) ∧ e.target = idOf (scope ++ q.segments) := by
  obtain ⟨x, hx, hdrawn⟩ := List.mem_filterMap.mp h
  obtain ⟨pair, hpair, rfl⟩ := List.mem_map.mp hx
  obtain ⟨connector, source, target⟩ := pair
  obtain ⟨hs, ht⟩ := mem_adjacent (List.of_mem_zip hpair).2
  unfold drawn at hdrawn
  split at hdrawn
  · next p q hp hq =>
    obtain rfl := Option.some.inj hdrawn
    obtain rfl : source = .shape p := hp
    obtain rfl : target = .shape q := hq
    exact ⟨p, q, hs, ht, rfl, rfl⟩
  · simp at hdrawn

theorem endpoint_listed {text : String} {scope : List String} {l c p : Tree}
    (hreach : Reached (parse text).tree scope l) (hc : .connection c ∈ l.statements)
    (hp : .shape p ∈ c.endpoints) :
    ((Outline.ofTree (parse text).tree).shape? (idOf (scope ++ p.segments))).isSome = true :=
  named_listed hreach (.endpoint hc hp)

/-- How an outline draws the connections of a tree. -/
structure Draws (root : Tree) (o : Outline) : Prop where
  each : ∀ scope l c, Reached root scope l → .connection c ∈ l.statements →
    o.edges.filter (·.span = c.span) = c.edges.filterMap (drawn scope c)
  only : ∀ e ∈ o.edges, ∃ scope l c, Reached root scope l ∧ .connection c ∈ l.statements ∧
    e ∈ c.edges.filterMap (drawn scope c)
  ends : ∀ e ∈ o.edges, (o.shape? e.source).isSome = true ∧ (o.shape? e.target).isSome = true

/-- The outline of every text draws exactly the edges between shapes of its reached
connections. -/
theorem outline_draws (text : String) :
    Draws (parse text).tree (Outline.ofTree (parse text).tree) := by
  have only : ∀ e ∈ (Outline.ofTree (parse text).tree).edges, ∃ scope l c,
      Reached (parse text).tree scope l ∧ .connection c ∈ l.statements ∧
        e ∈ c.edges.filterMap (drawn scope c) := by
    intro e he
    rw [walk_edges] at he
    obtain ⟨s, hs, he⟩ := List.mem_flatMap.mp he
    obtain ⟨scope, c, rfl⟩ := mem_sightEdges he
    obtain ⟨scope', l, hreach, hshow⟩ := (parse_reached text _).mp hs
    obtain ⟨rfl, hc⟩ := shows_chain hshow
    rw [chain_edges, reached_drawn hreach hc] at he
    exact ⟨scope, l, c, hreach, hc, he⟩
  constructor
  · intro scope l c hreach hc
    have hwalk := (parse_reached text _).mpr ⟨scope, l, hreach, .chain hc⟩
    rw [walk_edges, edges_at (parse_apart text) hwalk, reached_drawn hreach hc]
  · exact only
  · intro e he
    obtain ⟨scope, l, c, hreach, hc, hdrawn⟩ := only e he
    obtain ⟨p, q, hp, hq, hsource, htarget⟩ := drawn_ends hdrawn
    rw [hsource, htarget]
    exact ⟨endpoint_listed hreach hc hp, endpoint_listed hreach hc hq⟩

end DiagramText.Edges
