import DiagramText.Proofs.Balance
import DiagramText.Proofs.Schema

/-!
# Endpoints of connections

A statement that starts with a brace is read as a connection if lookahead
finds a connector behind the braced group. The grammar reads the block by its
own rules, which let array elements hold braces, so the block can end
elsewhere than the group. The two agree exactly for balanced blocks, and a
connection has a connector exactly if one follows its first endpoint. A block
that ends early leaves a connection with one endpoint and no connector.
-/

set_option autoImplicit false

namespace DiagramText.Endpoints
open Lookahead Measures Braces Balance Production DiagramText.Derivation Layout Schema Nesting
  DiagramText.Tree

/-- An endpoint, then one or more connectors with the endpoint after each. -/
structure Chained (n : Tree) : Prop where
  connector : n.connectorTokens ≠ []
  source : n.source?.isSome = true
  target : n.target?.isSome = true
  chain : ∃ e u w, signature n.elements = .node e :: (u ++ w) ∧ isEndpoint e = true ∧ Links u ∧
    u ≠ [] ∧ Annotated .labelDefinition .blockDefinition w

/-- The block is closed, and the braces between its own two balance. -/
def BalancedBlock (b : Tree) : Prop :=
  b.isClosedBlock = true ∧ braceDepth? 0 b.tokens.tail.dropLast = some 0

/-- What lookahead and the grammar make of a connection whose first endpoint is the block. -/
structure Foreseen (size : Nat) (rest : List Token) (n b : Tree) : Prop where
  ahead : blockBeforeConnector? ⟨rest, size⟩ = some true
  agrees : groupLength? .leftBrace .rightBrace 0 rest = some b.tokens.length ↔ BalancedBlock b
  followed : Chained n ↔ connectorAhead (rest.drop b.tokens.length) = true
  chained : BalancedBlock b → Chained n
  plain : BracelessValues [b] → BalancedBlock b

/-- A connection at the head of the tokens, by the kind of its first endpoint. -/
structure Headed (size : Nat) (rest : List Token) (n : Tree) : Prop where
  starts : n.tokens <+: rest
  named : ∀ e, n.elements.head? = some e → e.isKind .inlineShapeDefinition = false → Chained n
  inline : ∀ b, n.elements.head? = some b → b.isKind .inlineShapeDefinition = true →
    Foreseen size rest n b

def isEndpointSymbol : Symbol → Bool
  | .node k => isEndpoint k
  | .token _ => false

theorem endpoints_count (xs : List Tree) :
    (xs.filterMap Endpoint.ofTree?).length = (signature xs).countP isEndpointSymbol := by
  induction xs with
  | nil => rfl
  | cons x xs ih =>
    cases x with
    | token t =>
      have hs : (signature (.token t :: xs)).countP isEndpointSymbol =
          (signature xs).countP isEndpointSymbol := by
        by_cases ht : t.isTrivia <;> simp [signature, symbol?, ht, isEndpointSymbol]
      rw [hs, ← ih]
      rfl
    | node k s cs =>
      rw [signature_node, List.countP_cons, ← ih]
      cases k <;> rfl

theorem token_connector {n : Tree} {k : TokenKind} (hk : k.isConnector = true)
    (h : Symbol.token k ∈ signature n.elements) : n.connectorTokens ≠ [] := by
  obtain ⟨x, hx, hs⟩ := List.mem_filterMap.mp h
  cases x with
  | node => simp [symbol?] at hs
  | token t =>
    have ht : t.kind = k := by
      simp only [symbol?] at hs
      split at hs
      · simp at hs
      · simpa using hs
    have hmem : t ∈ n.connectorTokens :=
      List.mem_filter.mpr ⟨List.mem_filterMap.mpr ⟨_, hx, rfl⟩, by rwa [ht]⟩
    exact List.ne_nil_of_mem hmem

theorem linked_chained {n : Tree} {e : NodeKind} {u w : List Symbol}
    (hs : signature n.elements = .node e :: (u ++ w)) (he : isEndpoint e = true) (hu : Links u)
    (hne : u ≠ []) (hw : Annotated .labelDefinition .blockDefinition w) : Chained n := by
  cases hu with
  | nil => exact absurd rfl hne
  | @cons k e' v hk he' rest =>
    have hcount : 2 ≤ n.endpoints.length := by
      rw [endpoints, endpoints_count, hs]
      simp only [List.cons_append, List.countP_cons, isEndpointSymbol, he, he', if_true]
      omega
    refine ⟨token_connector hk (by simp [hs]), ?_, ?_, e, _, w, hs, he, .cons hk he' rest, hne, hw⟩
    · simp only [source?, Option.isSome_iff_ne_none, ne_eq, List.getElem?_eq_none_iff]
      omega
    · simp only [target?, Option.isSome_iff_ne_none, ne_eq, List.getElem?_eq_none_iff]
      omega

theorem annotated_plain {w : List Symbol} (h : Annotated .labelDefinition .blockDefinition w) :
    ∀ k, Symbol.token k ∈ w → k.isConnector = false := by
  obtain ⟨l, b, rfl, hl, hb⟩ := h
  intro k hk
  rcases List.mem_append.mp hk with hk | hk
  · cases hl with
    | bare => simp at hk
    | colon | full =>
      obtain rfl : k = .colon := by simpa using hk
      rfl
  · cases hb <;> simp at hk

theorem chained_linked {n : Tree} {e : NodeKind} {w : List Symbol} (h : Chained n)
    (hs : signature n.elements = .node e :: w)
    (hw : Annotated .labelDefinition .blockDefinition w) : False := by
  obtain ⟨t, ht⟩ := List.exists_mem_of_ne_nil _ h.connector
  obtain ⟨hown, hk⟩ := List.mem_filter.mp ht
  obtain ⟨x, hx, hxt⟩ := List.mem_filterMap.mp hown
  obtain rfl : x = .token t := by
    cases x with
    | token t' => simpa [token?] using hxt
    | node => simp [token?] at hxt
  have hv : t.isTrivia = false := (Statements.connector_plain hk).2
  have hmem := mem_signature t n.elements hx hv
  rw [hs] at hmem
  have hno := annotated_plain hw t.kind (by simpa using hmem)
  rw [hk] at hno
  exact absurd hno (by decide)

theorem signature_ahead {k : TokenKind} {xs : List Tree} {w : List Symbol} (ts : List Token)
    (h : signature xs = .token k :: w) :
    Cursor.peek? ⟨tokensAll xs ++ ts, 0⟩ = some k := by
  induction xs with
  | nil => simp at h
  | cons x xs ih =>
    cases x with
    | node => simp at h
    | token t =>
      by_cases ht : t.isTrivia
      · have hrest : signature xs = .token k :: w := by simpa [signature, symbol?, ht] using h
        simpa [Cursor.peek?, tokensAll, tokens, ht] using ih hrest
      · obtain ⟨hk, -⟩ : t.kind = k ∧ _ := by simpa [signature, symbol?, ht] using h
        simp [Cursor.peek?, tokensAll, tokens, ht, hk]

theorem links_ahead {xs : List Tree} (ts : List Token) (h : Links (signature xs))
    (hne : signature xs ≠ []) : connectorAhead (tokensAll xs ++ ts) = true := by
  cases hw : signature xs with
  | nil => exact absurd hw hne
  | cons s w =>
    rw [hw] at h
    cases h with
    | cons hk he rest =>
      rw [connectorAhead, signature_ahead ts hw]
      exact hk

theorem foreseen_group {size : Nat} {rest : List Token}
    (h : blockBeforeConnector? ⟨rest, size⟩ = some true) :
    ∃ m, groupLength? .leftBrace .rightBrace 0 rest = some m ∧
      connectorAhead (rest.drop m) = true := by
  obtain ⟨m, hm, hc⟩ := Option.map_eq_some_iff.mp h
  exact ⟨m, hm, hc⟩

theorem foreseen_short {size : Nat} {rest : List Token}
    (h : blockBeforeConnector? ⟨rest, size⟩ = some true) :
    groupLength? .leftBrace .rightBrace 0 rest ≠ some rest.length := by
  intro hall
  obtain ⟨m, hm, hc⟩ := foreseen_group h
  obtain rfl : m = rest.length := Option.some.inj (hm.symm.trans hall)
  rw [List.drop_length] at hc
  simp [connectorAhead, Cursor.peek?] at hc

theorem group_enters {t : Token} {ts : List Token} (m : Nat) (ht : t.kind = .leftBrace) :
    groupLength? .leftBrace .rightBrace 0 (t :: ts) = some (m + 1) ↔
      groupLength? .leftBrace .rightBrace 1 ts = some m := by
  simp [groupLength?, ht]

theorem closed_tokens (kind : NodeKind) (s : Nat) (t u : Token) (xs : List Tree) :
    tokens (.node kind s (.token t :: (xs ++ [.token u]))) = t :: (tokensAll xs ++ [u]) := by
  simp [tokens, tokensAll]

theorem closed_balanced {kind : NodeKind} {s : Nat} {t u : Token} {xs : List Tree}
    (hu : u.kind = .rightBrace) :
    BalancedBlock (.node kind s (.token t :: (xs ++ [.token u]))) ↔
      braceDepth? 0 (tokensAll xs) = some 0 := by
  have hclosed : isClosedBlock (.node kind s (.token t :: (xs ++ [.token u]))) = true :=
    (hasToken_iff _ _).mpr ⟨u, by simp [elements], hu⟩
  rw [BalancedBlock, hclosed, closed_tokens]
  simp

section

variable {size : Nat} {us : List Token} {kind : NodeKind} {b : Tree} (h : Body size us kind b)
  (hl : blockBeforeConnector? ⟨b.tokens ++ us, size⟩ = some true)

include h hl

theorem body_agrees :
    groupLength? .leftBrace .rightBrace 0 (b.tokens ++ us) = some b.tokens.length ↔
      BalancedBlock b := by
  cases h with
  | @closed scope t u ts xs ds brace inside items close =>
    rw [closed_balanced close]
    rw [closed_tokens] at hl ⊢
    have hgroup : groupLength? .leftBrace .rightBrace 0 (t :: (tokensAll xs ++ [u]) ++ us) =
        some (t :: (tokensAll xs ++ [u])).length ↔
          groupLength? .leftBrace .rightBrace 1 (tokensAll xs ++ u :: us) =
            some ((tokensAll xs).length + 1) := by
      simp [group_enters _ brace]
    rw [hgroup]
    constructor
    · intro hg
      refine (group_exact close ?_).mp hg
      rintro rfl
      apply foreseen_short hl
      rw [List.append_nil]
      rw [List.append_nil] at hgroup
      exact hgroup.mpr hg
    · exact group_closes us close
  | @unclosed scope t ts xs ds brace inside items ends =>
    subst ends
    rw [List.append_nil] at hl ⊢
    constructor
    · exact fun hg => absurd hg (foreseen_short hl)
    · rintro ⟨hclosed, -⟩
      rw [block_unclosed brace items] at hclosed
      exact absurd hclosed (by decide)

theorem body_braceless (hp : BracelessValues [b]) : BalancedBlock b := by
  cases h with
  | @closed scope t u ts xs ds brace inside items close =>
    rw [closed_balanced close]
    obtain ⟨d, hd, hz⟩ := derives_level inside (braceless_enclosed hp)
    obtain rfl : d = 0 := hz (by simp)
    exact hd
  | @unclosed scope t ts xs ds brace inside items ends =>
    -- the counter never comes back, so lookahead would run to the end of the document
    subst ends
    obtain ⟨d, hd, -⟩ := derives_level inside (braceless_tail (braceless_inside hp))
    have hg : groupLength? .leftBrace .rightBrace 1 (tokensAll xs) =
        some (tokensAll xs).length := by
      simpa [groupLength?] using group_append 0 d 0 (tokensAll xs) [] hd
    have htok : tokens (.node kind t.start (.token t :: xs)) = t :: tokensAll xs := rfl
    rw [List.append_nil, htok] at hl
    exact absurd ((group_enters _ brace).mpr hg) (foreseen_short hl)

end

section

variable {size s : Nat} {ts us vs ws : List Token} {kind : NodeKind} {source : Tree}
  {links rest : List Tree} {ds es fs : List Diagnostic}
  (first : Derives size ts [source] ds us) (chain : Derives size us links es vs)
  (last : Derives size vs rest fs ws) (sourceKind : source.kind? = some kind)
  (endpoint : isEndpoint kind = true) (linked : Links (signature links))
  (annotated : Annotated .labelDefinition .blockDefinition (signature rest))
  (alone : signature links = [] → kind = .inlineShapeDefinition ∧ connectorAhead us = false)

include sourceKind endpoint linked annotated in
theorem connection_chained :
    Chained (.node .shapeConnection s (source :: (links ++ rest))) ↔ signature links ≠ [] := by
  have hs : signature (elements (.node .shapeConnection s (source :: (links ++ rest)))) =
      .node kind :: (signature links ++ signature rest) := by
    obtain ⟨s', cs, rfl⟩ := node_of_kind sourceKind
    simp [elements]
  constructor
  · intro hc hnil
    rw [hnil, List.nil_append] at hs
    exact chained_linked hc hs annotated
  · intro hne
    exact linked_chained hs endpoint linked hne annotated

include chain linked alone in
theorem connection_followed : signature links ≠ [] ↔ connectorAhead us = true := by
  constructor
  · intro hne
    rw [derives_tokens chain]
    exact links_ahead vs linked hne
  · intro hc hnil
    rw [(alone hnil).2] at hc
    exact absurd hc (by decide)

include first chain last sourceKind endpoint linked annotated alone in
theorem connection_headed
    (foreseen : kind = .inlineShapeDefinition → blockBeforeConnector? ⟨ts, size⟩ = some true) :
    Headed size ts (.node .shapeConnection s (source :: (links ++ rest))) := by
  have hchained := connection_chained (s := s) sourceKind endpoint linked annotated
  have hfollowed := connection_followed chain linked alone
  have hts : ts = source.tokens ++ us := by
    simpa [tokensAll] using derives_tokens first
  constructor
  · refine ⟨ws, ?_⟩
    rw [hts, derives_tokens chain, derives_tokens last]
    simp [tokens, tokensAll]
  · intro e he hk
    obtain rfl : source = e := by simpa [elements] using he
    refine hchained.mpr fun hnil => ?_
    rw [isKind, sourceKind, (alone hnil).1] at hk
    exact absurd hk (by decide)
  · intro b hb hk
    obtain rfl : source = b := by simpa [elements] using hb
    obtain rfl : kind = .inlineShapeDefinition := by simpa [isKind, sourceKind] using hk
    have hscope : bodyScope? .inlineShapeDefinition = some .shape := rfl
    have hbody := block_body first rfl sourceKind hscope
    have hl := foreseen rfl
    have hdrop : ts.drop source.tokens.length = us := by rw [hts, List.drop_left]
    rw [hts] at hl
    have hagrees := body_agrees hbody hl
    have hchain : BalancedBlock source → connectorAhead us = true := by
      intro hbal
      obtain ⟨m, hm, hc⟩ := foreseen_group hl
      obtain rfl : m = source.tokens.length :=
        Option.some.inj (hm.symm.trans (hagrees.mpr hbal))
      rwa [List.drop_left] at hc
    rw [← hts] at hagrees hl
    exact ⟨hl, hagrees, by rw [hdrop]; exact hchained.trans hfollowed,
      fun hbal => hchained.mpr (hfollowed.mpr (hchain hbal)), body_braceless hbody (hts ▸ hl)⟩

end

def Heads (size : Nat) (ts : List Token) (xs : List Tree) : Prop :=
  ∀ n ∈ nodesAll xs, n.isKind .shapeConnection = true → ∃ rest, rest <:+ ts ∧ Headed size rest n

theorem heads_suffix {size : Nat} {ts us : List Token} {xs : List Tree} (h : Heads size us xs)
    (hs : us <:+ ts) : Heads size ts xs := by
  intro n hn hk
  obtain ⟨rest, hrest, hh⟩ := h n hn hk
  exact ⟨rest, hrest.trans hs, hh⟩

theorem heads_append {size : Nat} {ts us : List Token} {xs ys : List Tree}
    (hx : Heads size ts xs) (hy : Heads size us ys) (hs : us <:+ ts) :
    Heads size ts (xs ++ ys) :=
  forall_nodes_append.mpr ⟨hx, heads_suffix hy hs⟩

theorem heads_tokens (size : Nat) (ts us : List Token) : Heads size ts (us.map .token) := by
  simp [Heads]

theorem heads_node {size s : Nat} {ts : List Token} {kind : NodeKind} {xs : List Tree}
    (h : Heads size ts xs)
    (hn : kind = .shapeConnection → Headed size ts (.node kind s xs)) :
    Heads size ts [.node kind s xs] := by
  refine forall_nodes_node.mpr ⟨fun hk => ?_, h⟩
  exact ⟨ts, List.suffix_rfl, hn (by simpa [isKind, kind?] using hk)⟩

theorem heads_enclosed {size s : Nat} {t : Token} {ts : List Token} {kind : NodeKind}
    {xs close : List Tree} (h : Heads size ts xs) (hk : kind ≠ .shapeConnection)
    (hc : nodesAll close = []) :
    Heads size (t :: ts) [.node kind s (.token t :: (xs ++ close))] := by
  refine heads_node ?_ (fun h => absurd h hk)
  show Heads size (t :: ts) (xs ++ close)
  intro n hn
  rw [nodesAll_append, hc, List.append_nil] at hn
  exact heads_suffix h (List.suffix_cons t ts) n hn

theorem derives_suffix {size : Nat} {ts us : List Token} {xs : List Tree} {ds : List Diagnostic}
    (h : Derives size ts xs ds us) : us <:+ ts :=
  ⟨_, (derives_tokens h).symm⟩

theorem block_heads {kind : NodeKind} {scope : Grammar.Scope} (h : bodyScope? kind = some scope) :
    kind ≠ .shapeConnection := by
  rintro rfl
  simp [bodyScope?] at h

theorem derives_heads {size : Nat} {ts us : List Token} {xs : List Tree} {ds : List Diagnostic}
    (h : Derives size ts xs ds us) : Heads size ts xs := by
  induction h with
  | nil => simp [Heads, nodesAll]
  | append first _ ih ih' => exact heads_append ih ih' (derives_suffix first)
  | token t ts => exact heads_tokens size _ [t]
  | leaf kind t us ts tokens =>
    apply heads_node (heads_tokens size _ _)
    rcases tokens with ⟨rfl | rfl | rfl, -⟩ | ⟨rfl, -⟩ <;> simp
  | silent | rejected => exact heads_node (heads_tokens size _ _) (by simp)
  | missing => exact heads_node (heads_tokens size _ []) (by simp)
  | deepValue =>
    exact heads_node (heads_node (heads_tokens size _ _) (by simp)) (by simp)
  | arrayValue _ _ _ ih => exact heads_node ih (by simp)
  | closedArray _ _ _ _ ih => exact heads_enclosed ih (by decide) rfl
  | openArray _ _ _ ih => simpa using @heads_enclosed _ _ _ _ _ _ [] ih (by decide) rfl
  | closedBlock body _ _ _ _ ih => exact heads_enclosed ih (block_heads body) rfl
  | openBlock body _ _ _ ih =>
    simpa using @heads_enclosed _ _ _ _ _ _ [] ih (block_heads body) rfl
  | definition kinds _ _ ih =>
    apply heads_node ih
    rcases kinds with rfl | rfl <;> simp
  | connection first chain last sourceKind endpoint linked annotated foreseen alone ih ih' ih'' =>
    refine heads_node ?_ fun _ =>
      connection_headed first chain last sourceKind endpoint linked annotated alone foreseen
    exact heads_append ih (heads_append ih' ih'' (derives_suffix chain)) (derives_suffix first)

theorem outermost_heads {size : Nat} {ts us : List Token} {xs : List Tree}
    {ds : List Diagnostic} (h : Outermost size ts xs ds us) : Heads size ts xs := by
  induction h with
  | piece derives => exact derives_heads derives
  | append first _ ih ih' =>
    exact heads_append ih ih' ⟨_, (outermost_tokens first).symm⟩
  | stray t ts => exact heads_node (heads_tokens size _ [t]) (by simp)
  | anonymous _ block => exact derives_heads block

/-- In every text, each connection is a chain unless its first endpoint is a block that is not
balanced; there lookahead has counted another group, and the connection is a chain exactly if a
connector happens to follow the block. -/
theorem parse_headed (text : String) :
    ∀ n ∈ (parse text).tree.nodes, n.isKind .shapeConnection = true →
      ∃ rest, rest <:+ (tokenize text).1 ∧ Headed text.utf8ByteSize rest n := by
  obtain ⟨-, hd, -⟩ := document_derives (tokenize text).1 text.utf8ByteSize
  intro n hn hk
  rcases List.mem_cons.mp hn with rfl | hn
  · simp [isKind, kind?] at hk
  · exact outermost_heads hd n hn hk

theorem inline_block_headed :
    ∃ rest, rest <:+ (tokenize "{a} -> b").1 ∧ Headed ("{a} -> b").utf8ByteSize rest
      ((parse "{a} -> b").tree.nodes.get ⟨1, by decide +kernel⟩) :=
  parse_headed "{a} -> b" _ (List.get_mem _ _) (by decide +kernel)

theorem inline_block_alone :
    ∃ n ∈ (parse "{ shape: [{] } } -> b").tree.nodes,
      n.isKind .shapeConnection = true ∧ n.connectorTokens = [] ∧ n.target?.isSome = false := by
  have h : (parse "{ shape: [{] } } -> b").tree.nodes.any (fun n =>
      n.isKind .shapeConnection && (n.connectorTokens.isEmpty && !n.target?.isSome)) = true := by
    decide +kernel
  obtain ⟨n, hn, hp⟩ := List.any_eq_true.mp h
  simp only [Bool.and_eq_true, List.isEmpty_iff, Bool.not_eq_true'] at hp
  exact ⟨n, hn, hp.1, hp.2.1, hp.2.2⟩

end DiagramText.Endpoints
