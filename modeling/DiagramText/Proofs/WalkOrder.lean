import DiagramText.Proofs.Mentions
import DiagramText.Proofs.Widths

/-!
# The order of the walk

The walk shows paths in the order of the document: each path ends before the
next one starts. Chains are shown after what their inline blocks show, but no
two of them start at the same offset, since a block inside a chain opens with
its brace.
-/

set_option autoImplicit false

namespace DiagramText.WalkOrder
open Text Scanning Production Layout Schema Widths Mentions DiagramText.Tree

/-- A node that has the children of its production and whose tokens have width, as it has
itself unless it is an error. -/
structure Sound (n : Tree) : Prop where
  lawful : Lawful n
  wide : n.kind? ≠ some .error → n.start < n.stop
  tokens : ∀ t, .token t ∈ n.elements → t.start < t.stop

theorem parse_sound (text : String) : ∀ n ∈ nodesAll (parse text).tree.elements, Sound n := by
  intro n hn
  have hroot : n ∈ (parse text).tree.nodes := List.mem_cons_of_mem _ hn
  refine ⟨(parse_lawful text n hroot).1, parse_wide text hn, ?_⟩
  intro t ht
  obtain ⟨before, after, htokens, -⟩ := Lossless.nodes_covered text n hroot
  have hmem : t ∈ n.tokens := by
    cases n with
    | token => simp [elements] at ht
    | node k s cs => exact mem_tokensAll ht (List.mem_singleton.mpr rfl)
  apply tiled_widths (tokenize_covers text).1
  simp [htokens, hmem]

theorem placed_split {offset : Nat} {xs ys : List Tree} (h : Placed offset (xs ++ ys)) :
    Placed offset xs ∧ Placed (stopAll offset xs) ys := by
  induction xs generalizing offset with
  | nil => exact ⟨placed_nil offset, h⟩
  | cons x xs ih =>
    cases x with
    | token t =>
      rw [List.cons_append, placed_token] at h
      rw [placed_token]
      exact ⟨⟨h.1, (ih h.2).1⟩, (ih h.2).2⟩
    | node k s cs =>
      rw [List.cons_append, placed_node] at h
      rw [placed_node]
      exact ⟨⟨h.1, h.2.1, (ih h.2.2).1⟩, (ih h.2.2).2⟩

theorem placed_bounds {offset : Nat} {xs : List Tree} {n : Tree} (h : Placed offset xs)
    (hn : n ∈ nodesAll xs) : offset ≤ n.start ∧ n.stop ≤ stopAll offset xs := by
  obtain ⟨before, after, htokens, hstart, hp⟩ := placed_within h n hn
  have hstop : n.stop = n.start + byteSize (spelled (tokensAll [n])) := placed_stop hp
  have hrow := placed_stop h
  rw [htokens, spelled_append, spelled_append, byteSize_append, byteSize_append] at hrow
  simp only [tokensAll, List.append_nil] at hstop
  omega

theorem placed_before {offset : Nat} {x : Tree} {xs : List Tree} {n m : Tree}
    (h : Placed offset (x :: xs)) (hn : n ∈ x.nodes) (hm : m ∈ nodesAll xs) :
    n.stop ≤ m.start := by
  have hrow : Placed offset ([x] ++ xs) := h
  obtain ⟨hx, hxs⟩ := placed_split hrow
  have hn := placed_bounds hx (mem_nodesAll List.mem_cons_self hn)
  have hm := placed_bounds hxs hm
  exact hn.2.trans hm.1

def place? : Sight → Option Tree
  | .path _ _ p => some p
  | .chain _ c => some c
  | _ => none

theorem assignments_nowhere {shape path : List String} {value : String} :
    ∀ s ∈ assignments shape path value, place? s = none := by
  intro s hs
  unfold assignments at hs
  split at hs
  · split at hs
    · obtain rfl := List.mem_singleton.mp hs
      rfl
    · split at hs
      · obtain rfl := List.mem_singleton.mp hs
        rfl
      · simp at hs
  · simp at hs

theorem property_sights (scope : List String) (t : Tree) :
    ∃ paths gifts, propertySights scope t = paths ++ gifts ∧
      (paths = [] ∨ ∃ key, t.key? = some key ∧ paths = [.path scope key.targetPath key]) ∧
      ∀ s ∈ gifts, place? s = none := by
  unfold propertySights
  split
  · exact ⟨[], [], rfl, .inl rfl, by simp⟩
  · next key hkey =>
    refine ⟨_, _, rfl, ?_, ?_⟩
    · split
      · exact .inl rfl
      · exact .inr ⟨key, hkey, rfl⟩
    · intro s hs
      obtain ⟨v, -, hs⟩ := List.mem_flatMap.mp hs
      exact assignments_nowhere s hs

theorem head_sights (scope : List String) (p : Tree) (label : Option Tree) :
    ∃ gifts, headSights scope p label = .path scope p.segments p :: gifts ∧
      ∀ s ∈ gifts, place? s = none := by
  refine ⟨_, rfl, ?_⟩
  intro s hs
  obtain ⟨v, -, rfl⟩ := List.mem_map.mp hs
  rfl

theorem child_nodes {k k' : NodeKind} {s : Nat} {cs : List Tree} {p : Tree}
    (h : (Tree.node k s cs).child? k' = some p) : p ∈ nodesAll cs ∧ p.kind? = some k' := by
  have hk : p.kind? = some k' := by simpa [isKind] using List.find?_some h
  exact ⟨mem_nodesAll (List.mem_of_find?_eq_some h) (node_self hk), hk⟩

/-- What is shown stands in a node of the row, and not in an error node. -/
def Standing (ns : List Tree) (s : Sight) : Prop :=
  ∀ n, place? s = some n → n ∈ ns ∧ n.kind? ≠ some .error

theorem node_standing {k : NodeKind} {s : Nat} {cs : List Tree}
    (ih : ∀ counts scope, ∀ x ∈ walkOf counts scope cs, Standing (nodesAll cs) x)
    (scope : List String) :
    ∀ x ∈ walk scope (.node k s cs), Standing (Tree.node k s cs).nodes x := by
  have below {counts : NodeKind → Bool} {scope : List String} {x : Sight}
      (hx : x ∈ walkOf counts scope cs) : Standing (Tree.node k s cs).nodes x := by
    intro n hn
    obtain ⟨hmem, hplace⟩ := ih counts scope x hx n hn
    exact ⟨List.mem_cons_of_mem _ hmem, hplace⟩
  have nowhere {x : Sight} (hx : place? x = none) : Standing (Tree.node k s cs).nodes x := by
    intro n hn
    simp [hx] at hn
  intro x hx
  cases k with
  | document | subShapeDefinition | inlineShapeDefinition => exact below hx
  | shapeDefinition =>
    simp only [walk] at hx
    split at hx
    · simp at hx
    · next p hp =>
      obtain ⟨gifts, hgifts, hnone⟩ := head_sights scope p (Tree.node .shapeDefinition s cs).label?
      rw [hgifts] at hx
      rcases List.mem_append.mp hx with hx | hx
      · rcases List.mem_cons.mp hx with rfl | hx
        · intro n hn
          obtain rfl : p = n := by simpa [place?] using hn
          obtain ⟨hmem, hk⟩ := child_nodes hp
          exact ⟨List.mem_cons_of_mem _ hmem, by simp [hk]⟩
        · exact nowhere (hnone x hx)
      · exact below hx
  | shapeConnection =>
    rw [walk] at hx
    rcases List.mem_append.mp hx with hx | hx
    · exact below hx
    · obtain rfl := List.mem_singleton.mp hx
      intro n hn
      obtain rfl : Tree.node _ _ _ = n := by simpa [place?] using hn
      exact ⟨List.mem_cons_self, by simp [kind?]⟩
  | shapeId =>
    obtain rfl := List.mem_singleton.mp hx
    intro n hn
    obtain rfl : Tree.node _ _ _ = n := by simpa [place?] using hn
    exact ⟨List.mem_cons_self, by simp [kind?]⟩
  | property =>
    obtain ⟨paths, gifts, heq, hpaths, hnone⟩ := property_sights scope (.node .property s cs)
    rw [walk, heq] at hx
    rcases List.mem_append.mp hx with hx | hx
    · rcases hpaths with rfl | ⟨key, hkey, rfl⟩
      · simp at hx
      · obtain rfl := List.mem_singleton.mp hx
        intro n hn
        obtain rfl : key = n := by simpa [place?] using hn
        obtain ⟨hmem, hk⟩ := child_nodes hkey
        exact ⟨List.mem_cons_of_mem _ hmem, by simp [hk]⟩
    · exact nowhere (hnone x hx)
  | _ => simp [walk] at hx

theorem row_standing (xs : List Tree) : ∀ (counts : NodeKind → Bool) (scope : List String),
    ∀ x ∈ walkOf counts scope xs, Standing (nodesAll xs) x := by
  induction xs using forest_induction with
  | nil => simp [walkOf]
  | token t xs ih => exact ih
  | node k s cs xs ihc ih =>
    intro counts scope x hx n hn
    rw [walkOf] at hx
    rcases List.mem_append.mp hx with hx | hx
    · split at hx
      · obtain ⟨hmem, hk⟩ := node_standing ihc scope x hx n hn
        exact ⟨List.mem_append_left _ hmem, hk⟩
      · simp at hx
    · obtain ⟨hmem, hk⟩ := ih counts scope x hx n hn
      exact ⟨List.mem_append_right _ hmem, hk⟩

/-- The first ends before the second starts if both are paths, and they start apart if both are
chains. -/
def Apart : Sight → Sight → Prop
  | .path _ _ p, .path _ _ q => p.stop ≤ q.start
  | .chain _ c, .chain _ d => c.start ≠ d.start
  | _, _ => True

theorem apart_nowhere {a b : Sight} (h : place? a = none ∨ place? b = none) : Apart a b := by
  cases a <;> cases b <;> simp [place?] at h <;> exact True.intro

theorem apart_before {a b : Sight}
    (h : ∀ n m, place? a = some n → place? b = some m → n.start < m.start ∧ n.stop ≤ m.start) :
    Apart a b := by
  cases a with
  | path _ _ p =>
    cases b with
    | path _ _ q => exact (h p q rfl rfl).2
    | _ => exact True.intro
  | chain _ c =>
    cases b with
    | chain _ d => exact (h c d rfl rfl).1.ne
    | _ => exact True.intro
  | _ => exact True.intro

theorem path_first {xs : List Tree} {w : List Symbol} {p : Tree} {k : NodeKind}
    (hs : signature xs = .node k :: w) (hp : xs.find? (isKind k) = some p) :
    ∃ (pre : List Token) (post : List Tree), xs = pre.map .token ++ p :: post := by
  induction xs with
  | nil => simp at hs
  | cons x xs ih =>
    cases x with
    | token t =>
      have hs : signature xs = .node k :: w := by
        by_cases ht : t.isTrivia
        · simpa [signature, symbol?, ht] using hs
        · simp [signature, symbol?, ht] at hs
      have hp : xs.find? (isKind k) = some p := by simpa [isKind, kind?] using hp
      obtain ⟨pre, post, rfl⟩ := ih hs hp
      exact ⟨t :: pre, post, rfl⟩
    | node k' s cs =>
      obtain ⟨rfl, -⟩ : k' = k ∧ signature xs = w := by simpa using hs
      obtain rfl : Tree.node k' s cs = p := by simpa [isKind, kind?] using hp
      exact ⟨[], xs, rfl⟩

theorem walkOf_tokens (counts : NodeKind → Bool) (scope : List String) (us : List Token)
    (xs : List Tree) : walkOf counts scope (us.map .token ++ xs) = walkOf counts scope xs := by
  induction us with
  | nil => rfl
  | cons u us ih => exact ih

theorem body_behind {s : Nat} {cs : List Tree} {p : Tree} {scope : List String}
    (hl : Lawful (.node .shapeDefinition s cs))
    (hp : (Tree.node .shapeDefinition s cs).shapePath? = some p) (hplaced : Placed s cs) :
    ∀ x ∈ walkOf (· == .subShapeDefinition) scope cs,
      ∀ m, place? x = some m → p.stop ≤ m.start := by
  obtain ⟨w, hw, -⟩ := hl.conforms rfl
  have hp : cs.find? (isKind .shapeId) = some p := hp
  have hkind : p.kind? = some .shapeId := by simpa [isKind] using List.find?_some hp
  obtain ⟨pre, post, rfl⟩ := path_first hw hp
  intro x hx m hm
  rw [walkOf_tokens, walkOf, hkind] at hx
  have hmem := (row_standing post _ _ x hx m hm).1
  exact placed_before (placed_split hplaced).2 (node_self hkind) hmem

theorem inline_behind {s : Nat} {cs : List Tree} {scope : List String}
    (h : Sound (.node .inlineShapeDefinition s cs)) (hplaced : Placed s cs) :
    ∀ x ∈ walk scope (.node .inlineShapeDefinition s cs), ∀ m, place? x = some m → s < m.start := by
  obtain ⟨t, body, close, heq, -⟩ := h.lawful.conforms rfl
  obtain rfl : cs = .token t :: (body ++ close) := heq
  have hwide := h.tokens t List.mem_cons_self
  obtain ⟨rfl, hrest⟩ := (placed_token s t _).mp hplaced
  intro x hx m hm
  have hmem := (row_standing (body ++ close) _ scope x hx m hm).1
  exact hwide.trans_le (placed_bounds hrest hmem).1

theorem chain_behind {s : Nat} {cs : List Tree} {scope scope' : List String} {c : Tree}
    (hsound : ∀ n ∈ nodesAll cs, Sound n) (hplaced : Placed s cs)
    (h : .chain scope' c ∈ walkOf isEndpointBlock scope cs) : s < c.start := by
  obtain ⟨x, hx, hk, hwalk⟩ := mem_walkOf.mp h
  rcases endpoint_block hk with hkind | hkind
  · obtain ⟨s', cs', rfl⟩ := node_of_kind hkind
    simp [walk] at hwalk
  · obtain ⟨s', cs', rfl⟩ := node_of_kind hkind
    have hmem : .node .inlineShapeDefinition s' cs' ∈ nodesAll cs :=
      mem_nodesAll hx (node_self hkind)
    obtain ⟨-, -, -, -, hp⟩ := placed_within hplaced _ hmem
    have hcs := ((placed_node s' _ s' cs' []).mp hp).2.1
    have hstart := (placed_bounds hplaced hmem).1
    exact hstart.trans_lt (inline_behind (hsound _ hmem) hcs _ hwalk c rfl)

theorem node_apart {k : NodeKind} {s : Nat} {cs : List Tree} (hself : Sound (.node k s cs))
    (hsound : ∀ n ∈ nodesAll cs, Sound n) (hplaced : Placed s cs)
    (ih : ∀ counts scope, (walkOf counts scope cs).Pairwise Apart) (scope : List String) :
    (walk scope (.node k s cs)).Pairwise Apart := by
  cases k with
  | document | subShapeDefinition | inlineShapeDefinition => exact ih _ scope
  | shapeDefinition =>
    simp only [walk]
    split
    · exact List.Pairwise.nil
    · next p hp =>
      obtain ⟨gifts, hgifts, hnone⟩ := head_sights scope p (Tree.node .shapeDefinition s cs).label?
      rw [hgifts, List.pairwise_append]
      refine ⟨?_, ih _ _, ?_⟩
      · rw [List.pairwise_cons]
        exact ⟨fun b hb => apart_nowhere (.inr (hnone b hb)),
          List.pairwise_of_forall_mem_list fun a ha b _ => apart_nowhere (.inl (hnone a ha))⟩
      · intro a ha b hb
        rcases List.mem_cons.mp ha with rfl | ha
        · cases b with
          | path _ _ q => exact body_behind hself.lawful hp hplaced _ hb q rfl
          | _ => exact True.intro
        · exact apart_nowhere (.inl (hnone a ha))
  | shapeConnection =>
    rw [walk, List.pairwise_append]
    refine ⟨ih _ scope, List.pairwise_singleton _ _, ?_⟩
    intro a ha b hb
    obtain rfl := List.mem_singleton.mp hb
    cases a with
    | chain _ c => exact (chain_behind hsound hplaced ha).ne'
    | _ => exact True.intro
  | shapeId => exact List.pairwise_singleton _ _
  | property =>
    obtain ⟨paths, gifts, heq, hpaths, hnone⟩ := property_sights scope (.node .property s cs)
    rw [walk, heq, List.pairwise_append]
    refine ⟨?_, ?_, fun a _ b hb => apart_nowhere (.inr (hnone b hb))⟩
    · rcases hpaths with rfl | ⟨key, -, rfl⟩
      · exact List.Pairwise.nil
      · exact List.pairwise_singleton _ _
    · exact List.pairwise_of_forall_mem_list fun a ha b _ => apart_nowhere (.inl (hnone a ha))
  | _ => exact List.Pairwise.nil

theorem row_apart (xs : List Tree) : ∀ (offset : Nat), Placed offset xs →
    (∀ n ∈ nodesAll xs, Sound n) → ∀ (counts : NodeKind → Bool) (scope : List String),
      (walkOf counts scope xs).Pairwise Apart := by
  induction xs using forest_induction with
  | nil => exact fun _ _ _ _ _ => List.Pairwise.nil
  | token t xs ih => exact fun offset hp hs => ih t.stop ((placed_token offset t xs).mp hp).2 hs
  | node k s cs xs ihc ih =>
    intro offset hp hs counts scope
    obtain ⟨rfl, hc, hx⟩ := (placed_node offset k s cs xs).mp hp
    have hself : Sound (.node k s cs) := hs _ List.mem_cons_self
    have hcs : ∀ n ∈ nodesAll cs, Sound n := fun n hn =>
      hs n (List.mem_append_left _ (List.mem_cons_of_mem _ hn))
    have hxs : ∀ n ∈ nodesAll xs, Sound n := fun n hn => hs n (List.mem_append_right _ hn)
    rw [walkOf, List.pairwise_append]
    refine ⟨?_, ih _ hx hxs counts scope, ?_⟩
    · split
      · exact node_apart hself hcs hc (ihc s hc hcs) scope
      · exact List.Pairwise.nil
    · intro a ha b hb
      split at ha
      · apply apart_before
        intro n m hn hm
        obtain ⟨hmem, hk⟩ := node_standing (row_standing cs) scope a ha n hn
        have hbefore := placed_before hp hmem (row_standing xs counts scope b hb m hm).1
        have hwide := (hs n (List.mem_append_left _ hmem)).wide hk
        exact ⟨hwide.trans_le hbefore, hbefore⟩
      · simp at ha

theorem parse_apart (text : String) : (walk [] (parse text).tree).Pairwise Apart :=
  row_apart _ 0 (Lossless.document_placed text).1 (parse_sound text) _ []

theorem parse_standing (text : String) :
    ∀ x ∈ walk [] (parse text).tree, Standing (nodesAll (parse text).tree.elements) x :=
  row_standing _ _ []

end DiagramText.WalkOrder
