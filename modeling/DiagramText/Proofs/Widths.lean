import DiagramText.Proofs.Lossless
import DiagramText.Proofs.Schema
import DiagramText.Proofs.Splitting

/-!
# Nodes that have width

Only error nodes can be empty: every other node below the document holds a
token, so it is at least one byte wide. The tokens of a path start with a word
or a string, so every path has a segment.
-/

set_option autoImplicit false

namespace DiagramText.Widths
open Text Scanning Measures Production DiagramText.Derivation Layout Nesting Splitting
  DiagramText.Tree

def isPath (k : NodeKind) : Bool := k == .shapeId || k == .propertyKey

structure Solid (n : Tree) : Prop where
  filled : n.kind? ≠ some .error → n.tokens ≠ []
  named : n.kind?.any isPath = true → n.segments ≠ []

theorem starts_segment {k : NodeKind} {s : Nat} {t : Token} {us : List Token}
    (h : Lookahead.startsSegment t.kind = true) :
    segments (.node k s ((t :: us).map .token)) ≠ [] := by
  have hdot : t.kind ≠ .dot := by
    intro hk
    simp [hk, Lookahead.startsSegment] at h
  have htrivia : t.isTrivia = false := by
    cases hk : t.kind <;> simp_all [Lookahead.startsSegment, Token.isTrivia, TokenKind.isTrivia]
  obtain ⟨piece, pieces, hsplit⟩ := split_first hdot us
  obtain ⟨segment, hsegment⟩ := Option.isSome_iff_exists.mp
    (piece_segment (List.mem_cons_self (a := t) (l := piece)) htrivia)
  rw [segments, pathSegments, tokens, tokensAll_map_token, hsplit, List.filterMap_cons, hsegment]
  simp

theorem measured_starts {t : Token} {us : List Token} (h : Measured (t :: us)) :
    Lookahead.startsSegment t.kind = true := by
  obtain ⟨ts, hts⟩ := h
  cases ts with
  | nil => simp at hts
  | cons v vs =>
    by_contra hk
    have hlen : Lookahead.pathLength (v :: vs) = 0 := by
      have hv : v = t := by
        cases hl : Lookahead.pathLength (v :: vs) <;> simp_all
      subst hv
      have hs : Lookahead.segmentLength (v :: vs) = 0 := by
        simp only [Lookahead.startsSegment, Bool.or_eq_true, beq_iff_eq, not_or] at hk
        simp [Lookahead.segmentLength, hk]
      rw [Lookahead.pathLength, Lookahead.path]
      simp [hs]
    simp [hlen] at hts

theorem solid_tokens (us : List Token) : ∀ n ∈ nodesAll (us.map .token), Solid n := by
  simp

theorem solid_append {xs ys : List Tree} (hx : ∀ n ∈ nodesAll xs, Solid n)
    (hy : ∀ n ∈ nodesAll ys, Solid n) : ∀ n ∈ nodesAll (xs ++ ys), Solid n :=
  forall_nodes_append.mpr ⟨hx, hy⟩

/-- A node of another kind than a path has only to hold a token. -/
theorem solid_node {k : NodeKind} {s : Nat} {xs : List Tree} (hk : isPath k = false)
    (ht : tokensAll xs ≠ []) (h : ∀ n ∈ nodesAll xs, Solid n) :
    ∀ n ∈ nodesAll [.node k s xs], Solid n :=
  forall_nodes_node.mpr ⟨⟨fun _ => ht, fun hp => by simp [kind?, hk] at hp⟩, h⟩

theorem solid_error {s : Nat} (us : List Token) :
    ∀ n ∈ nodesAll [.node .error s (us.map .token)], Solid n :=
  forall_nodes_node.mpr ⟨⟨fun h => absurd rfl h, fun h => by simp [kind?, isPath] at h⟩,
    solid_tokens us⟩

theorem solid_leaf {k : NodeKind} {s : Nat} {t : Token} {us : List Token}
    (h : Leaf k (t :: us)) : ∀ n ∈ nodesAll [.node k s ((t :: us).map .token)], Solid n := by
  refine forall_nodes_node.mpr ⟨⟨fun _ => List.cons_ne_nil _ _, fun hp => ?_⟩, solid_tokens _⟩
  apply starts_segment
  apply measured_starts
  rcases h with ⟨-, -, hm⟩ | ⟨rfl, -⟩
  · apply hm
    rintro rfl
    simp [kind?, isPath] at hp
  · simp [kind?, isPath] at hp

theorem mem_tokensAll {t : Token} {x : Tree} {xs : List Tree} (hx : x ∈ xs) (ht : t ∈ x.tokens) :
    t ∈ tokensAll xs := by
  obtain ⟨before, after, rfl⟩ := List.append_of_mem hx
  simp [tokensAll, ht]

theorem row_filled {k : NodeKind} {xs : List Tree} {w : List Symbol}
    (h : ∀ n ∈ nodesAll xs, Solid n) (hs : signature xs = .node k :: w) (hk : k ≠ .error) :
    tokensAll xs ≠ [] := by
  have hmem : Symbol.node k ∈ signature xs := by simp [hs]
  obtain ⟨x, hx, hsym⟩ := List.mem_filterMap.mp hmem
  have hkind : x.kind? = some k := by
    cases x with
    | token t =>
      simp only [symbol?] at hsym
      split at hsym <;> simp at hsym
    | node => simpa [symbol?, kind?] using hsym
  have hsolid : Solid x := by
    apply h
    exact mem_nodesAll hx (node_self hkind)
  obtain ⟨t, ht⟩ := List.exists_mem_of_ne_nil _ (hsolid.filled (by simp [hkind, hk]))
  exact List.ne_nil_of_mem (mem_tokensAll hx ht)

theorem body_named {k : NodeKind} {scope : Grammar.Scope} (h : bodyScope? k = some scope) :
    isPath k = false := by
  cases k <;> simp [bodyScope?] at h <;> rfl

theorem links_filled {xs : List Tree} (h : Links (signature xs)) (hne : signature xs ≠ []) :
    tokensAll xs ≠ [] := by
  cases hs : signature xs with
  | nil => exact absurd hs hne
  | cons sym w =>
    rw [hs] at h
    cases h with
    | @cons k e w hk he rest =>
      have hmem : Symbol.token k ∈ signature xs := by simp [hs]
      obtain ⟨x, hx, hsym⟩ := List.mem_filterMap.mp hmem
      cases x with
      | token t => exact List.ne_nil_of_mem (mem_tokensAll hx (List.mem_singleton.mpr rfl))
      | node => simp [symbol?] at hsym

theorem derives_solid {size : Nat} {ts us : List Token} {xs : List Tree} {ds : List Diagnostic}
    (h : Derives size ts xs ds us) : ∀ n ∈ nodesAll xs, Solid n := by
  induction h with
  | nil | token => simp [nodesAll, nodes]
  | append _ _ ih ih' => exact solid_append ih ih'
  | leaf _ t us ts tokens => exact solid_leaf tokens
  | silent t us ts | rejected t us ts => exact solid_error (t :: us)
  | missing ts => exact solid_error []
  | deepValue t us ts =>
    exact solid_node rfl (by simp [tokensAll, tokens]) (solid_error (t :: us))
  | @arrayValue ts us x ds _ kind _ ih =>
    refine solid_node rfl (row_filled (k := .array) (w := []) ih ?_ (by simp)) ih
    obtain ⟨s, cs, rfl⟩ := node_of_kind (eq_of_beq kind)
    rfl
  | closedArray _ _ _ _ ih =>
    exact solid_node rfl (List.cons_ne_nil _ _) (solid_append ih (solid_tokens [_]))
  | openArray _ _ _ ih => exact solid_node rfl (List.cons_ne_nil _ _) ih
  | closedBlock body _ _ _ _ ih =>
    exact solid_node (body_named body) (List.cons_ne_nil _ _) (solid_append ih (solid_tokens [_]))
  | openBlock body _ _ _ ih => exact solid_node (body_named body) (List.cons_ne_nil _ _) ih
  | definition kinds _ conforms ih =>
    rcases kinds with rfl | rfl
    · obtain ⟨w, hw, -⟩ := conforms
      exact solid_node rfl (row_filled ih hw (by simp)) ih
    · obtain ⟨w, hw, -⟩ := conforms
      exact solid_node rfl (row_filled ih hw (by simp)) ih
  | @connection ts us vs ws kind source links rest _ _ _ _ _ _ sourceKind endpoint linked _ _
      alone ih ih' ih'' =>
    refine solid_node rfl ?_ (solid_append ih (solid_append ih' ih''))
    by_cases hk : kind = .error
    · -- a source that was left out has a connector behind it
      have hlinks : tokensAll links ≠ [] := by
        apply links_filled linked
        intro hnone
        simp [hk] at alone
        exact absurd hnone alone
      simp [tokensAll, hlinks]
    · have hsource : source.tokens ≠ [] := by
        have hself : source ∈ nodesAll [source] :=
          mem_nodesAll List.mem_cons_self (node_self sourceKind)
        exact (ih source hself).filled (by simp [sourceKind, hk])
      simp [tokensAll, hsource]

theorem outermost_solid {size : Nat} {ts us : List Token} {xs : List Tree}
    {ds : List Diagnostic} (h : Outermost size ts xs ds us) : ∀ n ∈ nodesAll xs, Solid n := by
  induction h with
  | piece derives => exact derives_solid derives
  | append _ _ ih ih' => exact solid_append ih ih'
  | stray t ts => exact solid_error [t]
  | anonymous _ block => exact derives_solid block

theorem parse_solid (text : String) : ∀ n ∈ nodesAll (parse text).tree.elements, Solid n := by
  obtain ⟨-, hd, -⟩ := document_derives (tokenize text).1 text.utf8ByteSize
  exact outermost_solid hd

/-- Below the document only error nodes can have no width. -/
theorem parse_wide (text : String) {n : Tree} (hn : n ∈ nodesAll (parse text).tree.elements)
    (hk : n.kind? ≠ some .error) : n.start < n.stop := by
  obtain ⟨before, after, htokens, hspan⟩ :=
    Lossless.nodes_covered text n (List.mem_cons_of_mem _ hn)
  obtain ⟨t, us, hn⟩ := List.exists_cons_of_ne_nil ((parse_solid text n hn).filled hk)
  have hwide : t.start < t.stop := by
    apply tiled_widths (tokenize_covers text).1
    simp [htokens, hn]
  rw [Token.stop] at hwide
  obtain ⟨hstart, hstop⟩ : n.start = _ ∧ n.stop = _ := by simpa [Tree.span] using hspan
  rw [hstart, hstop, hn, spelled_cons, byteSize_append]
  omega

end DiagramText.Widths
