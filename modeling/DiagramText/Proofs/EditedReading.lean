import DiagramText.Proofs.Editing
import DiagramText.Proofs.Reach
import DiagramText.Proofs.Widths
import DiagramText.Validation

/-!
# Readings of an edited tree

An outline and the checks read a tree through its nodes, its connectors, the
segments of its paths and the texts of its labels and values. If an edit
leaves out trivia alone and touches no token that spells such a text, the
edited tree is read like the tree before it, up to spans.
-/

set_option autoImplicit false

namespace DiagramText.Edit
open DiagramText.Tree Layout Reach Splitting Widths

variable {e : Edit}

/-- A token that stays is still of its kind, and one that goes is trivia. -/
def Tame (e : Edit) (t : Token) : Prop :=
  (∃ u, e.token t = some u ∧ Alike t.kind u.kind) ∨ e.token t = none ∧ t.isTrivia = true

def Same (t u : Token) : Prop := u.kind = t.kind ∧ u.text = t.text

def Whole (e : Edit) (t : Token) : Prop := ∃ u, e.token t = some u ∧ Same t u

theorem fits_tame {stop : Nat} {ts : List Token} (h : e.Fits stop ts) : ∀ t ∈ ts, Tame e t := by
  intro t ht
  rcases fits_mem h t ht with ⟨u, hu, hk⟩ | hn
  · exact .inl ⟨u, hu, hk.kind⟩
  · exact .inr hn

theorem row_whole {ts : List Token} (h : ∀ t ∈ ts, Whole e t) :
    List.Forall₂ Same ts (e.row ts) := by
  induction ts with
  | nil => exact .nil
  | cons t ts ih =>
    obtain ⟨⟨u, hu, hsame⟩, hrest⟩ := List.forall_mem_cons.mp h
    rw [row_keep hu]
    exact .cons hsame (ih hrest)

section

variable {ts us : List Token}

theorem same_texts (h : List.Forall₂ Same ts us) : us.flatMap (·.text) = ts.flatMap (·.text) := by
  induction h with
  | nil => rfl
  | cons hsame _ ih => rw [List.flatMap_cons, List.flatMap_cons, hsame.2, ih]

theorem same_significant (h : List.Forall₂ Same ts us) :
    List.Forall₂ Same (ts.filter (!·.isTrivia)) (us.filter (!·.isTrivia)) := by
  refine List.rel_filter (fun t u hsame => ?_) h
  have htrivia : u.isTrivia = t.isTrivia := congrArg TokenKind.isTrivia hsame.1
  simp only [htrivia]

theorem same_cooked {n m : Tree} (h : List.Forall₂ Same n.tokens m.tokens) :
    m.cooked = n.cooked := by
  have htext : m.text = n.text := congrArg String.ofList (same_texts h)
  have hsignificant := same_significant h
  unfold cooked significant
  rw [htext]
  generalize n.tokens.filter (!·.isTrivia) = ts, m.tokens.filter (!·.isTrivia) = us at *
  cases hsignificant with
  | nil => rfl
  | cons hsame hrest =>
    cases hrest with
    | nil => simp only [hsame.1, hsame.2]
    | cons => rfl

end

theorem tame_trivia {t u : Token} (h : Tame e t) (hu : e.token t = some u) :
    u.isTrivia = t.isTrivia := by
  rcases h with ⟨v, hv, hk⟩ | ⟨hn, -⟩
  · obtain rfl : v = u := by simpa [hv] using hu
    exact alike_test (p := TokenKind.isTrivia) rfl hk
  · simp [hn] at hu

theorem trim_row {ts : List Token} (h : ∀ t ∈ ts, Tame e t) :
    Segment.trimTrivia (e.row ts) = e.row (Segment.trimTrivia ts) := by
  have hdrop (us : List Token) (hus : ∀ t ∈ us, Tame e t) :
      (e.row us).dropWhile (·.isTrivia) = e.row (us.dropWhile (·.isTrivia)) := by
    apply dropWhile_row
    · exact fun t ht u hu => tame_trivia (hus t ht) hu
    · intro t ht hn
      rcases hus t ht with ⟨u, hu, -⟩ | ⟨-, htrivia⟩
      · simp [hn] at hu
      · exact htrivia
  have hrest : ∀ t ∈ (ts.dropWhile (·.isTrivia)).reverse, Tame e t := fun t ht =>
    h t ((List.dropWhile_suffix _).subset (List.mem_reverse.mp ht))
  rw [Segment.trimTrivia, Segment.trimTrivia, hdrop ts h, ← row_reverse, hdrop _ hrest,
    row_reverse]

theorem piece_edited {piece : List Token} (h : ∀ t ∈ piece, Tame e t)
    (hwhole : ∀ t ∈ Segment.trimTrivia piece, Whole e t) :
    Segment.ofTokens? (e.row piece) = Segment.ofTokens? piece := by
  have hsame := row_whole hwhole
  have htexts := same_texts hsame
  unfold Segment.ofTokens?
  rw [trim_row h]
  generalize Segment.trimTrivia piece = ts at *
  generalize e.row ts = us at *
  cases hsame with
  | nil => rfl
  | cons hfirst hrest =>
    cases hrest with
    | nil => simp only [hfirst.1, hfirst.2, Token.spelling]
    | cons => simp only [htexts]

theorem split_row {ts : List Token} (h : ∀ t ∈ ts, Tame e t) :
    Segment.splitAtDots (e.row ts) = (Segment.splitAtDots ts).map e.row := by
  induction ts with
  | nil => rfl
  | cons t ts ih =>
    obtain ⟨hhead, hrest⟩ := List.forall_mem_cons.mp h
    have ih := ih hrest
    obtain ⟨piece, pieces, hsplit⟩ := split_cons ts
    rw [hsplit] at ih
    rcases hhead with ⟨u, hu, hk⟩ | ⟨hn, htrivia⟩
    · have hdot := alike_iff (m := .dot) rfl hk
      rw [row_keep hu]
      simp only [Segment.splitAtDots, ih, hsplit, List.map_cons, hdot]
      split
      · rfl
      · rw [List.map_cons, row_keep hu]
    · have hdot : t.kind ≠ .dot := by
        intro hk
        simp [Token.isTrivia, hk, TokenKind.isTrivia] at htrivia
      rw [row_leave hn, ih]
      simp only [Segment.splitAtDots, hsplit, if_neg hdot, List.map_cons, row_leave hn]

variable (e) in
/-- The node of the edited tree that a node becomes. -/
def node : Tree → Tree
  | .token t => .token t
  | .node k s cs => .node k (e.offset s) (e.trees cs)

theorem tokens_trees (xs : List Tree) : tokensAll (e.trees xs) = e.row (tokensAll xs) := by
  induction xs using forest_induction with
  | nil => rfl
  | token t xs ih =>
    rw [trees, tokensAll_append, ih, tree]
    cases ht : e.token t with
    | none => exact (row_leave ht _).symm
    | some u => exact (row_keep ht _).symm
  | node k s cs xs ihc ih =>
    show tokensAll (e.trees cs) ++ tokensAll (e.trees xs) = _
    rw [ihc, ih, ← row_append]
    rfl

theorem nodes_trees (xs : List Tree) : nodesAll (e.trees xs) = (nodesAll xs).map e.node := by
  induction xs using forest_induction with
  | nil => rfl
  | token t xs ih =>
    rw [trees, nodesAll_append, ih, tree]
    cases e.token t <;> rfl
  | node k s cs xs ihc ih =>
    show e.node (.node k s cs) :: nodesAll (e.trees cs) ++ nodesAll (e.trees xs) = _
    rw [ihc, ih, ← List.map_cons, ← List.map_append]
    rfl

theorem nodes_node (n : Tree) : (e.node n).nodes = n.nodes.map e.node := by
  cases n with
  | token => rfl
  | node k s cs => exact congrArg (e.node (.node k s cs) :: ·) (nodes_trees cs)

/-- Readers of the node come to the same text. -/
structure Legible (e : Edit) (n : Tree) : Prop where
  tokens : ∀ t ∈ n.tokens, Tame e t
  path : n.kind?.any isPath = true →
    ∀ piece ∈ Segment.splitAtDots n.tokens, ∀ t ∈ Segment.trimTrivia piece, Whole e t
  text : n.kind? = some .labelDefinition ∨ n.kind? = some .attributeValue →
    ∀ t ∈ n.tokens, Whole e t

section

variable {n : Tree}

theorem node_kind (n : Tree) : (e.node n).kind? = n.kind? := by cases n <;> rfl

theorem node_tokens {k : NodeKind} (h : n.kind? = some k) : (e.node n).tokens = e.row n.tokens := by
  obtain ⟨s, cs, rfl⟩ := node_of_kind h
  exact tokens_trees cs

theorem Legible.cooked (h : Legible e n)
    (hk : n.kind? = some .labelDefinition ∨ n.kind? = some .attributeValue) :
    (e.node n).cooked = n.cooked := by
  apply same_cooked
  have htokens : (e.node n).tokens = e.row n.tokens := by
    rcases hk with hk | hk <;> exact node_tokens hk
  rw [htokens]
  exact row_whole (h.text hk)

theorem Legible.pathSegments (h : Legible e n) (hk : n.kind?.any isPath = true) :
    (e.node n).pathSegments = n.pathSegments := by
  obtain ⟨k, hkind, -⟩ := (Option.any_eq_true _ _).mp hk
  rw [Tree.pathSegments, Tree.pathSegments, node_tokens hkind, split_row h.tokens,
    List.filterMap_map]
  refine List.filterMap_congr fun piece hpiece => ?_
  exact piece_edited (fun t ht => h.tokens t (split_mem hpiece t ht)) (h.path hk piece hpiece)

theorem Legible.segments (h : Legible e n) (hk : n.kind?.any isPath = true) :
    (e.node n).segments = n.segments := by
  rw [Tree.segments, Tree.segments, h.pathSegments hk]

theorem Legible.targetPath (h : Legible e n) (hk : n.kind?.any isPath = true) :
    (e.node n).targetPath = n.targetPath := by
  rw [Tree.targetPath, Tree.targetPath, keywordIndex?, keywordIndex?, h.segments hk,
    h.pathSegments hk]

theorem Legible.keywordPath (h : Legible e n) (hk : n.kind?.any isPath = true) :
    (e.node n).keywordPath = n.keywordPath := by
  rw [Tree.keywordPath, Tree.keywordPath, keywordIndex?, keywordIndex?, h.segments hk,
    h.pathSegments hk]

end

theorem find_edited (k : NodeKind) (xs : List Tree) :
    (e.trees xs).find? (isKind k) = (xs.find? (isKind k)).map e.node := by
  induction xs with
  | nil => rfl
  | cons x xs ih =>
    cases x with
    | token t =>
      rw [trees, tree, List.find?_cons_of_neg (by simp [isKind, kind?])]
      cases e.token t with
      | none => exact ih
      | some u =>
        show List.find? _ (.token u :: e.trees xs) = _
        rw [List.find?_cons_of_neg (by simp [isKind, kind?]), ih]
    | node l s cs =>
      show List.find? _ (e.node (.node l s cs) :: e.trees xs) = _
      by_cases hl : l = k
      · simp [isKind, kind?, hl, node]
      · rw [List.find?_cons_of_neg (by simp [isKind, kind?, node, hl]),
          List.find?_cons_of_neg (by simp [isKind, kind?, hl]), ih]

theorem child_edited (k : NodeKind) (n : Tree) :
    (e.node n).child? k = (n.child? k).map e.node := by
  cases n with
  | token => rfl
  | node l s cs => exact find_edited k cs

end DiagramText.Edit
