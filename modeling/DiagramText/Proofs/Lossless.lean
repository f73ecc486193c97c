import DiagramText.Parse
import DiagramText.Proofs.Building
import DiagramText.Proofs.Nesting

/-!
# Trees lose nothing

Every text has a tree, and the tree holds the text: its tokens are those of
the scanner, each in one place, and every span is a slice of the text between
two characters. No counter of the grammar falls below zero, no loop stalls,
and the builder accepts every event.
-/

set_option autoImplicit false

namespace DiagramText.Lossless
open Text Scanning DiagramText.Derivation Layout Building Nesting DiagramText.Tree

structure Contiguous (n : Tree) : Prop where
  touching : n.elements.IsChain (fun a b => a.stop = b.start)
  first : ∀ c, n.elements.head? = some c → n.start = c.start
  last : ∀ c, n.elements.getLast? = some c → n.stop = c.stop
  childless : n.elements = [] → n.span = .empty n.start

def Covered (tokens : List Token) (x : Tree) : Prop :=
  ∃ before after, tokens = before ++ x.tokens ++ after ∧
    x.span = ⟨byteSize (spelled before), byteSize (spelled (before ++ x.tokens))⟩

/-- Both ends of the span lie between characters, and the slice is what the tree spells. -/
structure Sliced (text : String) (x : Tree) : Prop where
  start : String.Pos.Raw.IsValid text ⟨x.start⟩
  stop : String.Pos.Raw.IsValid text ⟨x.stop⟩
  slice : String.Pos.Raw.extract text ⟨x.start⟩ ⟨x.stop⟩ = x.text

theorem boundary_valid {text : String} {before after : List Char}
    (h : text.toList = before ++ after) :
    String.Pos.Raw.IsValid text ⟨byteSize before⟩ := by
  refine String.Pos.Raw.isValid_iff_exists_append.mpr
    ⟨String.ofList before, String.ofList after, ?_, ?_⟩
  · rw [← String.ofList_append, ← h, String.ofList_toList]
  · rw [String.rawEndPos_ofList, byteSize_utf8Len]

theorem covered_sliced {text : String} {tokens : List Token} {x : Tree}
    (hs : spelled tokens = text.toList) (h : Covered tokens x) : Sliced text x := by
  obtain ⟨before, after, htok, hspan⟩ := h
  obtain ⟨hstart, hstop⟩ : x.start = _ ∧ x.stop = _ := by simpa [Tree.span] using hspan
  have hchars : text.toList = spelled before ++ spelled x.tokens ++ spelled after := by
    rw [← hs, htok, spelled_append, spelled_append]
  constructor
  · rw [hstart]
    rw [List.append_assoc] at hchars
    exact boundary_valid hchars
  · rw [hstop, ← byteSize_append]
    exact boundary_valid hchars
  · rw [hstart, hstop, byteSize_utf8Len, byteSize_utf8Len, ← String.ofList_toList (s := text),
      hchars]
    exact String.extract_of_valid _ _ _

theorem placed_contiguous {k : NodeKind} {s : Nat} {cs : List Tree} (h : Placed s cs) :
    Contiguous (.node k s cs) := by
  refine ⟨placed_chain h, ?_, fun c hl => stopAll_last hl, ?_⟩
  · intro c hhead
    cases cs with
    | nil => simp [elements] at hhead
    | cons d cs =>
      obtain rfl : d = c := by simpa [elements] using hhead
      exact (placed_start h).1.symm
  · intro hnil
    obtain rfl : cs = [] := hnil
    rfl

theorem placed_covered {xs : List Tree} (h : Placed 0 xs) :
    ∀ n ∈ nodesAll xs, Covered (tokensAll xs) n := by
  intro n hn
  obtain ⟨before, after, htok, hstart, hp⟩ := placed_within h n hn
  refine ⟨before, after, htok, ?_⟩
  have hstop : n.stop = n.start + byteSize (spelled (tokensAll [n])) := placed_stop hp
  rw [Nat.zero_add] at hstart
  rw [Tree.span, hstop, hstart, spelled_append, byteSize_append]
  simp [tokensAll]

theorem owned_tokens (xs : List Tree) :
    ((nodesAll xs).flatMap ownTokens ++ xs.filterMap token?).Perm (tokensAll xs) := by
  induction xs using forest_induction with
  | nil => simp [nodesAll, tokensAll]
  | token t xs ih =>
    simpa [nodesAll, nodes, tokensAll, tokens, token?] using List.perm_middle.trans (ih.cons t)
  | node k s cs xs ihc ih =>
    have hcs : (cs.filterMap token? ++ (nodesAll cs).flatMap ownTokens).Perm (tokensAll cs) :=
      List.perm_append_comm.trans ihc
    have hrow : (nodesAll (.node k s cs :: xs)).flatMap ownTokens ++
        (Tree.node k s cs :: xs).filterMap token? =
          cs.filterMap token? ++ (nodesAll cs).flatMap ownTokens ++
            ((nodesAll xs).flatMap ownTokens ++ xs.filterMap token?) := by
      simp only [nodesAll, nodes, List.flatMap_append, List.flatMap_cons, List.append_assoc]
      rfl
    rw [hrow]
    exact hcs.append ih

theorem owner_unique {ns : List Tree} {t : Token} (hnd : (ns.flatMap ownTokens).Nodup)
    (ht : t ∈ ns.flatMap ownTokens) : ∃ n, ns.filter (fun n => t ∈ n.ownTokens) = [n] := by
  induction ns with
  | nil => simp at ht
  | cons n ns ih =>
    rw [List.flatMap_cons, List.nodup_append] at hnd
    obtain ⟨-, hrest, hdisj⟩ := hnd
    by_cases hn : t ∈ n.ownTokens
    · refine ⟨n, ?_⟩
      have hnone : ns.filter (fun n => t ∈ n.ownTokens) = [] := by
        rw [List.filter_eq_nil_iff]
        intro m hm hmt
        exact hdisj t hn t (List.mem_flatMap.mpr ⟨m, hm, by simpa using hmt⟩) rfl
      simp [hn, hnone]
    · rw [List.flatMap_cons, List.mem_append] at ht
      obtain ⟨m, hm⟩ := ih hrest (ht.resolve_left hn)
      exact ⟨m, by simpa [List.filter_cons, hn] using hm⟩

/-- What it means that the tree of a text loses nothing. -/
structure Faithful (text : String) : Prop where
  runs : (Grammar.document ⟨(tokenize text).1, text.utf8ByteSize⟩).stuck = false
  builds : build? text.utf8ByteSize (events (parse text).tree.elements) = some (parse text).tree
  tokens : (parse text).tree.tokens = (tokenize text).1
  owner : ∀ t ∈ (tokenize text).1,
    ∃ n, (parse text).tree.nodes.filter (fun n => t ∈ n.ownTokens) = [n]
  spelling : spelled (tokenize text).1 = text.toList
  root : (parse text).tree.kind? = some .document
  span : (parse text).tree.span = ⟨0, text.utf8ByteSize⟩
  contiguous : ∀ n ∈ (parse text).tree.nodes, Contiguous n
  covered : ∀ n ∈ (parse text).tree.nodes, Covered (tokenize text).1 n
  slices : ∀ n ∈ (parse text).tree.nodes, Sliced text n
  tokenSlices : ∀ t ∈ (tokenize text).1, Sliced text (.token t)

theorem document_placed (text : String) :
    Placed 0 (parse text).tree.elements ∧
      stopAll 0 (parse text).tree.elements = text.utf8ByteSize ∧
      tokensAll (parse text).tree.elements = (tokenize text).1 := by
  obtain ⟨-, hd, -⟩ := document_derives (tokenize text).1 text.utf8ByteSize
  obtain ⟨hp, hc⟩ := outermost_placed hd 0 (tokenize_covers text)
  have ht := outermost_tokens hd
  rw [List.append_nil] at ht
  exact ⟨hp, hc.2, ht.symm⟩

theorem token_covered {tokens : List Token} {t : Token} (h : Tiled 0 tokens) (ht : t ∈ tokens) :
    Covered tokens (.token t) := by
  obtain ⟨before, after, rfl⟩ := List.append_of_mem ht
  have hstart := tiled_start h
  refine ⟨before, after, by simp [Tree.tokens], ?_⟩
  rw [Nat.zero_add] at hstart
  rw [Tree.span, Tree.start, Tree.stop, Token.stop, hstart, spelled_append, byteSize_append]
  simp [Tree.tokens]

theorem root_placed (text : String) :
    Placed 0 [(parse text).tree] ∧ tokensAll [(parse text).tree] = (tokenize text).1 ∧
      nodesAll [(parse text).tree] = (parse text).tree.nodes := by
  obtain ⟨hplaced, -, htokens⟩ := document_placed text
  refine ⟨?_, (List.append_nil _).trans htokens, List.append_nil _⟩
  exact (placed_node 0 .document 0 _ []).mpr ⟨rfl, hplaced, placed_nil _⟩

theorem nodes_covered (text : String) :
    ∀ n ∈ (parse text).tree.nodes, Covered (tokenize text).1 n := by
  obtain ⟨hroot, htokens, hnodes⟩ := root_placed text
  rw [← hnodes, ← htokens]
  exact placed_covered hroot

theorem nodes_contiguous (text : String) : ∀ n ∈ (parse text).tree.nodes, Contiguous n := by
  obtain ⟨hroot, -, hnodes⟩ := root_placed text
  intro n hn
  rw [← hnodes] at hn
  obtain ⟨k, s, cs, rfl⟩ := mem_nodes_node n hn
  obtain ⟨-, -, -, -, hp⟩ := placed_within hroot _ hn
  exact placed_contiguous ((placed_node s k s cs []).mp hp).2.1

theorem tokens_owned (text : String) :
    ∀ t ∈ (tokenize text).1,
      ∃ n, (parse text).tree.nodes.filter (fun n => t ∈ n.ownTokens) = [n] := by
  obtain ⟨-, htokens, hnodes⟩ := root_placed text
  have hown := owned_tokens [(parse text).tree]
  have hnone : [(parse text).tree].filterMap token? = [] := rfl
  rw [hnodes, htokens, hnone, List.append_nil] at hown
  intro t ht
  have hnodup := tiled_nodup (tokenize_covers text).1
  exact owner_unique (hown.nodup_iff.mpr hnodup) (hown.mem_iff.mpr ht)

theorem parse_faithful (text : String) : Faithful text := by
  obtain ⟨hruns, -, -⟩ := document_derives (tokenize text).1 text.utf8ByteSize
  obtain ⟨hplaced, hstop, htokens⟩ := document_placed text
  have hspell := tokenize_spells text
  have hcovered := nodes_covered text
  constructor
  · exact hruns
  · exact build_events hplaced hstop
  · exact htokens
  · exact tokens_owned text
  · exact hspell
  · rfl
  · exact congrArg (Span.mk 0) hstop
  · exact nodes_contiguous text
  · exact hcovered
  · intro n hn
    exact covered_sliced hspell (hcovered n hn)
  · intro t ht
    exact covered_sliced hspell (token_covered (tokenize_covers text).1 ht)

end DiagramText.Lossless
