import DiagramText.Proofs.Edges

/-!
# The order of the edges

An outline draws the edges of a connection after those of its inline
endpoints. So edges come in the order in which their connections end, and the
spans of two connections in that order follow each other or are nested, the
inner one first. The order of their starts is kept exactly as long as no
connection draws an edge besides one inside an inline endpoint of its own.
-/

set_option autoImplicit false

namespace DiagramText.EdgeOrder
open Relation Layout Schema Mentions Reach WalkOrder Widths Edges DiagramText.Tree

/-- The connection stands in a list that the list opens, or in the list itself, in the scope that
has been entered there. -/
def Holds (scope : List String) (l : Tree) (scope' : List String) (c : Tree) : Prop :=
  ∃ l', ReflTransGen Opens (scope, l) (scope', l') ∧ .connection c ∈ l'.statements

def JoinsShapes (c : Tree) : Prop :=
  ∃ e ∈ c.edges, e.source.shape?.isSome = true ∧ e.target.shape?.isSome = true

def DrawnInside (root : Tree) (e f : OutlineEdge) : Prop :=
  ∃ scope c b scope' c', Holds [] root scope c ∧ .inline b ∈ c.endpoints ∧
    Holds scope b scope' c' ∧ e ∈ c'.edges.filterMap (drawn scope' c') ∧
    f ∈ c.edges.filterMap (drawn scope c)

def Interleaved (root : Tree) : Prop :=
  ∃ scope c b scope' c', Holds [] root scope c ∧ .inline b ∈ c.endpoints ∧
    Holds scope b scope' c' ∧ JoinsShapes c' ∧ JoinsShapes c

theorem joins_drawn (scope : List String) (c : Tree) :
    JoinsShapes c ↔ ∃ e, e ∈ c.edges.filterMap (drawn scope c) := by
  constructor
  · rintro ⟨e, he, hs, ht⟩
    obtain ⟨source, connector, target⟩ := e
    cases source with
    | shape p =>
      cases target with
      | shape q => exact ⟨_, List.mem_filterMap.mpr ⟨_, he, rfl⟩⟩
      | _ => simp [Endpoint.shape?] at ht
    | _ => simp [Endpoint.shape?] at hs
  · rintro ⟨f, hf⟩
    obtain ⟨e, he, hdrawn⟩ := List.mem_filterMap.mp hf
    refine ⟨e, he, ?_⟩
    unfold drawn at hdrawn
    split at hdrawn
    · next p q hp hq => simp [hp, hq, Endpoint.shape?]
    · simp at hdrawn

theorem chain_held {l : Tree} (hl : isList l = true) (hlaw : ∀ n ∈ l.nodes, Lawful n)
    (scope scope' : List String) (c : Tree) :
    .chain scope' c ∈ walk scope l ↔ Holds scope l scope' c := by
  constructor
  · intro h
    obtain ⟨scope'', l', hreach, hshow⟩ := walk_shows hl hlaw scope _ h
    obtain ⟨rfl, hc⟩ := shows_chain hshow
    exact ⟨l', hreach, hc⟩
  · rintro ⟨l', hreach, hc⟩
    obtain ⟨hlist, hback⟩ := reached_walk hreach hl
    exact hback _ (shows_walk (.chain hc) hlist)

def Later : Sight → Sight → Prop
  | .chain scope c, .chain scope' d =>
    c.stop ≤ d.start ∨ ∃ b, .inline b ∈ d.endpoints ∧ .chain scope c ∈ walk scope' b
  | _, _ => True

def isChain : Sight → Bool
  | .chain _ _ => true
  | _ => false

theorem later_free {a b : Sight} (h : isChain a = false) : Later a b := by
  cases a with
  | chain => simp [isChain] at h
  | _ => exact True.intro

theorem pairwise_free {sights : List Sight} (h : ∀ a ∈ sights, isChain a = false) :
    sights.Pairwise Later :=
  List.pairwise_of_forall_mem_list fun a ha _ _ => later_free (h a ha)

theorem nowhere_free {a : Sight} (h : place? a = none) : isChain a = false := by
  cases a with
  | chain => simp [place?] at h
  | _ => rfl

theorem head_free (scope : List String) (p : Tree) (label : Option Tree) :
    ∀ a ∈ headSights scope p label, isChain a = false := by
  obtain ⟨gifts, hgifts, hnone⟩ := head_sights scope p label
  rw [hgifts]
  intro a ha
  rcases List.mem_cons.mp ha with rfl | ha
  · rfl
  · exact nowhere_free (hnone a ha)

theorem property_free (scope : List String) (t : Tree) :
    ∀ a ∈ propertySights scope t, isChain a = false := by
  obtain ⟨paths, gifts, heq, hpaths, hnone⟩ := property_sights scope t
  rw [heq]
  intro a ha
  rcases List.mem_append.mp ha with ha | ha
  · rcases hpaths with rfl | ⟨key, -, rfl⟩
    · simp at ha
    · obtain rfl := List.mem_singleton.mp ha
      rfl
  · exact nowhere_free (hnone a ha)

theorem endpoints_later {s : Nat} {cs : List Tree} {scope : List String} {a : Sight}
    (h : a ∈ walkOf isEndpointBlock scope cs) :
    Later a (.chain scope (.node .shapeConnection s cs)) := by
  cases a with
  | chain scope' c =>
    obtain ⟨x, hx, hk, hwalk⟩ := mem_walkOf.mp h
    rcases endpoint_block hk with hkind | hkind
    · simp [walk_path hkind] at hwalk
    · exact .inr ⟨x, mem_endpoints.mpr ⟨hx, hkind⟩, hwalk⟩
  | _ => exact True.intro

theorem node_later {k : NodeKind} {s : Nat} {cs : List Tree}
    (ih : ∀ counts scope, (walkOf counts scope cs).Pairwise Later) (scope : List String) :
    (walk scope (.node k s cs)).Pairwise Later := by
  cases k with
  | document | subShapeDefinition | inlineShapeDefinition => exact ih _ scope
  | shapeDefinition =>
    simp only [walk]
    split
    · exact List.Pairwise.nil
    · rw [List.pairwise_append]
      have hfree := head_free scope
      exact ⟨pairwise_free (hfree _ _), ih _ _, fun a ha b _ => later_free (hfree _ _ a ha)⟩
  | shapeConnection =>
    rw [walk, List.pairwise_append]
    refine ⟨ih _ scope, List.pairwise_singleton _ _, ?_⟩
    intro a ha b hb
    obtain rfl := List.mem_singleton.mp hb
    exact endpoints_later ha
  | shapeId => exact List.pairwise_singleton _ _
  | property =>
    rw [walk]
    exact pairwise_free (property_free scope _)
  | _ => exact List.Pairwise.nil

theorem row_later (xs : List Tree) : ∀ (offset : Nat), Placed offset xs →
    ∀ (counts : NodeKind → Bool) (scope : List String),
      (walkOf counts scope xs).Pairwise Later := by
  induction xs using forest_induction with
  | nil => exact fun _ _ _ _ => List.Pairwise.nil
  | token t xs ih => exact fun offset hp => ih t.stop ((placed_token offset t xs).mp hp).2
  | node k s cs xs ihc ih =>
    intro offset hp counts scope
    obtain ⟨rfl, hc, hx⟩ := (placed_node offset k s cs xs).mp hp
    rw [walkOf, List.pairwise_append]
    refine ⟨?_, ih _ hx counts scope, ?_⟩
    · split
      · exact node_later (ihc s hc) scope
      · exact List.Pairwise.nil
    · intro a ha b hb
      split at ha
      · cases a with
        | chain scope' c =>
          cases b with
          | chain scope'' d =>
            have hc' := (node_standing (row_standing cs) scope _ ha c rfl).1
            have hd := (row_standing xs counts scope _ hb d rfl).1
            exact .inl (placed_before hp hc' hd)
          | _ => exact True.intro
        | _ => exact True.intro
      · simp at ha

theorem parse_later (text : String) : (walk [] (parse text).tree).Pairwise Later :=
  row_later _ 0 (Lossless.document_placed text).1 _ []

section

variable {text : String} {scope scope' : List String} {c c' b : Tree}

theorem inline_within (hc : c ∈ nodesAll (parse text).tree.elements)
    (hb : .inline b ∈ c.endpoints) (h : .chain scope' c' ∈ walk scope b) :
    c.start < c'.start ∧ c'.stop ≤ c.stop := by
  obtain ⟨-, -, -, -, hp⟩ := placed_within (Lossless.document_placed text).1 c hc
  obtain ⟨hx, hk⟩ := mem_endpoints.mp hb
  simp only [Endpoint.tree, endpointKind] at hx hk
  cases c with
  | token => simp [elements] at hx
  | node k s cs =>
    obtain ⟨-, hcs, -⟩ := (placed_node _ k s cs []).mp hp
    have hwalk : .chain scope' c' ∈ walkOf isEndpointBlock scope cs :=
      mem_walkOf.mpr ⟨b, hx, by simp [hk, isEndpointBlock], h⟩
    have hsound : ∀ n ∈ nodesAll cs, Sound n := fun n hn =>
      parse_sound text n (nodes_below hc hn)
    exact ⟨chain_behind hsound hcs hwalk,
      (placed_bounds hcs (row_standing cs _ scope _ hwalk c' rfl).1).2⟩

theorem text_chain :
    .chain scope c ∈ walk [] (parse text).tree ↔ Holds [] (parse text).tree scope c :=
  chain_held rfl (fun n hn => (parse_lawful text n hn).1) [] scope c

theorem held_node (h : Holds [] (parse text).tree scope c) :
    c ∈ nodesAll (parse text).tree.elements ∧ c.start < c.stop := by
  obtain ⟨hc, hk⟩ := parse_standing text _ (text_chain.mpr h) c rfl
  exact ⟨hc, parse_wide text hc hk⟩

theorem held_drawn (h : Holds [] (parse text).tree scope c) :
    c.namedEdges (scopeId scope) = c.edges.filterMap (drawn scope c) := by
  obtain ⟨l, hreach, hc⟩ := h
  exact reached_drawn hreach hc

theorem inline_held (hc : Holds [] (parse text).tree scope c) (hb : .inline b ∈ c.endpoints) :
    (Holds scope b scope' c' → Holds [] (parse text).tree scope' c') ∧
      (.chain scope' c' ∈ walk scope b ↔ Holds scope b scope' c') := by
  constructor
  · rintro ⟨l', hreach', hc'⟩
    obtain ⟨l, hreach, hmem⟩ := hc
    exact ⟨l', (hreach.tail (.inline hmem hb)).trans hreach', hc'⟩
  · obtain ⟨hx, hk⟩ := mem_endpoints.mp hb
    simp only [Endpoint.tree, endpointKind] at hx hk
    have hnode := (held_node hc).1
    apply chain_held
    · simp [isList, isKind, hk]
    · intro n hn
      cases c with
      | token => simp [elements] at hx
      | node k s cs =>
        have hmem := nodes_below hnode (mem_nodesAll hx hn)
        exact (parse_lawful text n (List.mem_cons_of_mem _ hmem)).1

end

/-- Of two edges in the order of the outline, both belong to one connection, or the connection of
the first ends before that of the second starts, or it lies in an inline endpoint of it. -/
def Nests (root : Tree) (e f : OutlineEdge) : Prop :=
  e.span = f.span ∨ e.span.stop ≤ f.span.start ∨
    f.span.start < e.span.start ∧ e.span.stop ≤ f.span.stop ∧ DrawnInside root e f

theorem edges_nest (text : String) :
    (Outline.ofTree (parse text).tree).edges.Pairwise (Nests (parse text).tree) := by
  rw [walk_edges, List.pairwise_flatMap]
  constructor
  · intro s _
    refine List.pairwise_of_forall_mem_list fun e he f hf => ?_
    obtain ⟨scope, c, rfl⟩ := mem_sightEdges he
    rw [chain_edges] at he hf
    exact .inl ((named_span he).trans (named_span hf).symm)
  · refine (parse_later text).imp_of_mem ?_
    intro s s' hs hs' hfollows e he f hf
    obtain ⟨scope', c', rfl⟩ := mem_sightEdges he
    obtain ⟨scope, c, rfl⟩ := mem_sightEdges hf
    have hheld := text_chain.mp hs'
    rw [chain_edges] at he hf
    rw [Nests, named_span he, named_span hf]
    rcases hfollows with hbefore | ⟨b, hb, hwalk⟩
    · exact .inr (.inl hbefore)
    · obtain ⟨hstart, hstop⟩ := inline_within (held_node hheld).1 hb hwalk
      obtain ⟨-, hinner⟩ := inline_held hheld hb
      rw [held_drawn (text_chain.mp hs)] at he
      rw [held_drawn hheld] at hf
      exact .inr (.inr ⟨hstart, hstop, scope, c, b, scope', c', hheld, hb, hinner.mp hwalk, he, hf⟩)

theorem edge_wide {text : String} {e : OutlineEdge}
    (h : e ∈ (Outline.ofTree (parse text).tree).edges) : e.span.start < e.span.stop := by
  rw [walk_edges] at h
  obtain ⟨s, hs, he⟩ := List.mem_flatMap.mp h
  obtain ⟨scope, c, rfl⟩ := mem_sightEdges he
  rw [chain_edges] at he
  rw [named_span he]
  exact (held_node (text_chain.mp hs)).2

theorem held_edge {text : String} {scope : List String} {c : Tree} {e : OutlineEdge}
    (h : Holds [] (parse text).tree scope c) (he : e ∈ c.edges.filterMap (drawn scope c)) :
    e ∈ (Outline.ofTree (parse text).tree).edges ∧ e.span = c.span := by
  rw [← held_drawn h] at he
  rw [walk_edges]
  refine ⟨List.mem_flatMap.mpr ⟨_, text_chain.mpr h, ?_⟩, named_span he⟩
  rwa [chain_edges]

theorem pairwise_either {α : Type} {R : α → α → Prop} {l : List α} (h : l.Pairwise R) {a b : α}
    (ha : a ∈ l) (hb : b ∈ l) (hne : a ≠ b) : R a b ∨ R b a := by
  have hsymm : Std.Symm fun a b => R a b ∨ R b a := ⟨fun _ _ => Or.symm⟩
  have heither : l.Pairwise fun a b => R a b ∨ R b a := h.imp Or.inl
  exact heither.forall ha hb hne

theorem inside_disorder {text : String} (h : Interleaved (parse text).tree) :
    ¬ (Outline.ofTree (parse text).tree).edges.Pairwise
      fun e f => e.span.start ≤ f.span.start := by
  intro hstarts
  obtain ⟨scope, c, b, scope', c', hheld, hb, hholds, hj', hj⟩ := h
  obtain ⟨hinner, hwalk⟩ := inline_held hheld hb
  obtain ⟨e, he⟩ := (joins_drawn scope' c').mp hj'
  obtain ⟨f, hf⟩ := (joins_drawn scope c).mp hj
  obtain ⟨he, hes⟩ := held_edge (hinner hholds) he
  obtain ⟨hf, hfs⟩ := held_edge hheld hf
  obtain ⟨hstart, hstop⟩ := inline_within (held_node hheld).1 hb (hwalk.mpr hholds)
  have hstart : f.span.start < e.span.start := by rwa [hes, hfs]
  have hstop : e.span.stop ≤ f.span.stop := by rwa [hes, hfs]
  have hwide := edge_wide he
  -- whichever of the two comes first, order and nesting contradict each other
  have hne : e ≠ f := by
    rintro rfl
    exact lt_irrefl _ hstart
  rcases pairwise_either (hstarts.and (edges_nest text)) he hf hne with
    ⟨hle, -⟩ | ⟨-, hspan | hbefore | ⟨hlt, -⟩⟩
  · omega
  · rw [hspan] at hstart
    exact lt_irrefl _ hstart
  · omega
  · omega

/-- In which order an outline lists the edges of a tree. -/
structure EdgesOrdered (root : Tree) (o : Outline) : Prop where
  stops : o.edges.Pairwise fun e f => e.span.stop ≤ f.span.stop
  inner : o.edges.Pairwise fun e f => e.span.start ≤ f.span.start ∨ DrawnInside root e f
  starts : (o.edges.Pairwise fun e f => e.span.start ≤ f.span.start) ↔ ¬ Interleaved root

/-- The outline of every text lists its edges in the order in which their connections end. They
also start in that order exactly if no connection draws an edge around another one's. -/
theorem outline_edges_ordered (text : String) :
    EdgesOrdered (parse text).tree (Outline.ofTree (parse text).tree) := by
  have hnest := edges_nest text
  have hinner : (Outline.ofTree (parse text).tree).edges.Pairwise fun e f =>
      e.span.start ≤ f.span.start ∨ DrawnInside (parse text).tree e f := by
    refine hnest.imp_of_mem ?_
    rintro e f he - (hspan | hbefore | ⟨-, -, hinside⟩)
    · exact .inl (congrArg Span.start hspan).le
    · exact .inl ((edge_wide he).le.trans hbefore)
    · exact .inr hinside
  refine ⟨?_, hinner, fun hstarts hbad => inside_disorder hbad hstarts, fun hnone => ?_⟩
  · refine hnest.imp_of_mem ?_
    rintro e f - hf (hspan | hbefore | ⟨-, hstop, -⟩)
    · exact (congrArg Span.stop hspan).le
    · exact hbefore.trans (edge_wide hf).le
    · exact hstop
  · refine hinner.imp ?_
    rintro e f (hle | ⟨scope, c, b, scope', c', hheld, hb, hholds, he, hf⟩)
    · exact hle
    · have hj' := (joins_drawn scope' c').mpr ⟨e, he⟩
      have hj := (joins_drawn scope c).mpr ⟨f, hf⟩
      exact absurd ⟨scope, c, b, scope', c', hheld, hb, hholds, hj', hj⟩ hnone

theorem inline_edge_first :
    (Outline.ofTree (parse "a -> b -> { c -> d }").tree).edges.map (·.span.start) = [12, 0] ∧
      ¬ (Outline.ofTree (parse "a -> b -> { c -> d }").tree).edges.Pairwise
        fun e f => e.span.start ≤ f.span.start := by
  decide +kernel

end DiagramText.EdgeOrder
