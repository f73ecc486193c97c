import DiagramText.Proofs.Construction
import DiagramText.Proofs.Endpoints
import DiagramText.Proofs.Rendering

/-!
# How many endpoints a chain has

A chain has one endpoint more than connectors, since the endpoints are its
paths, its inline blocks and its error nodes, and an error node takes the place
of an endpoint. There is one exception: a chain that stands as deep as groups
nest cannot have a block, and the error node that keeps its block counts as one
endpoint more.
-/

set_option autoImplicit false

namespace DiagramText.ChainLengths
open Lookahead Grammar Rule Scanning Production Schema Endpoints Depth Construction DiagramText.Tree

theorem connectors_count (xs : List Tree) :
    ((xs.filterMap token?).filter (·.kind.isConnector)).length =
      (signature xs).countP isConnectorSymbol := by
  rw [← List.countP_eq_length_filter]
  induction xs with
  | nil => rfl
  | cons x xs ih =>
    cases x with
    | node k s cs => rw [signature_node, List.countP_cons, ← ih]; rfl
    | token t =>
      have hown : (Tree.token t :: xs).filterMap token? = t :: xs.filterMap token? := rfl
      rw [hown, List.countP_cons, ih]
      cases ht : t.isTrivia with
      | true =>
        have hplain : t.kind.isConnector = false := by
          by_contra hk
          have hsolid := (Statements.connector_plain (by simpa using hk)).2
          exact absurd (ht.symm.trans hsolid) (by simp)
        simp [signature, symbol?, ht, hplain]
      | false =>
        have hs : signature (.token t :: xs) = .token t.kind :: signature xs := by
          simp [signature, symbol?, ht]
        rw [hs, List.countP_cons]
        rfl

theorem links_count {u : List Symbol} (h : Links u) :
    u.countP isEndpointSymbol = u.countP isConnectorSymbol := by
  induction h with
  | nil => rfl
  | cons hk he rest ih => simp [isEndpointSymbol, isConnectorSymbol, hk, he, ih]

theorem label_count {l : List Symbol} (h : Labelled .labelDefinition l) :
    l.countP isEndpointSymbol = 0 ∧ l.countP isConnectorSymbol = 0 ∧ .node .error ∉ l := by
  cases h <;> exact ⟨rfl, rfl, by simp⟩

theorem links_last {u l : List Symbol} (hu : Links u) (hl : Labelled .labelDefinition l)
    {s : Symbol} (hs : isConnectorSymbol s = false) :
    ∃ t ∈ (s :: (u ++ l)).getLast?, isConnectorSymbol t = false := by
  induction hu generalizing s with
  | nil => cases hl <;> exact ⟨_, rfl, by first | exact hs | rfl⟩
  | @cons k e u hk he rest ih =>
    obtain ⟨t, ht, hplain⟩ := @ih (.node e) rfl
    exact ⟨t, by simpa using ht, hplain⟩

theorem chain_symbols {e : NodeKind} {u w : List Symbol} (he : isEndpoint e = true) (hu : Links u)
    (hw : Annotated .labelDefinition .blockDefinition w) :
    let symbols := .node e :: (u ++ w)
    (Tidy symbols → symbols.countP isEndpointSymbol = symbols.countP isConnectorSymbol + 1) ∧
      (¬Tidy symbols → symbols.countP isEndpointSymbol = symbols.countP isConnectorSymbol + 2) := by
  intro symbols
  obtain ⟨l, b, rfl, hl, hb⟩ := hw
  obtain ⟨hnone, hnone', hclean⟩ := label_count hl
  have hlinks := links_count hu
  have hcounts : symbols.countP isEndpointSymbol =
        u.countP isEndpointSymbol + b.countP isEndpointSymbol + 1 ∧
      symbols.countP isConnectorSymbol =
        u.countP isConnectorSymbol + b.countP isConnectorSymbol := by
    simp [symbols, List.countP_append, hnone, hnone', isEndpointSymbol, isConnectorSymbol, he]
  have htidy : .node .error ∉ b → Tidy symbols := by
    intro hbody
    obtain ⟨htail, hhead⟩ := @tidy_links u (l ++ b) hu
      (List.forall_mem_append.mpr ⟨fun s hs he => hclean (he ▸ hs), fun s hs he => hbody (he ▸ hs)⟩)
    exact List.isChain_cons.mpr ⟨fun t ht he => absurd he (hhead t ht), htail⟩
  cases hb with
  | none =>
    have hzero : ([] : List Symbol).countP isEndpointSymbol = 0 := rfl
    exact ⟨fun _ => by simp_all, fun hrefused => absurd (htidy (by simp)) hrefused⟩
  | body =>
    have hzero : [Symbol.node .blockDefinition].countP isEndpointSymbol = 0 := rfl
    have hzero' : [Symbol.node .blockDefinition].countP isConnectorSymbol = 0 := rfl
    exact ⟨fun _ => by omega, fun hrefused => absurd (htidy (by simp)) hrefused⟩
  | error =>
    have hone : [Symbol.node .error].countP isEndpointSymbol = 1 := rfl
    have hzero : [Symbol.node .error].countP isConnectorSymbol = 0 := rfl
    refine ⟨fun h => ?_, fun _ => by omega⟩
    obtain ⟨t, ht, hplain⟩ := links_last hu hl (s := .node e) rfl
    have hsplit : symbols = (.node e :: (u ++ l)) ++ [.node .error] := by simp [symbols]
    rw [Tidy, hsplit, List.isChain_append] at h
    exact absurd (h.2.2 t ht (.node .error) rfl rfl) (by simp [hplain])

/-- The endpoints of a chain and the groups around it. -/
structure Counted (p : Place) : Prop where
  tidy : Tidy (signature p.node.elements) →
    p.node.endpoints.length = p.node.connectorTokens.length + 1
  refused : ¬Tidy (signature p.node.elements) →
    p.node.endpoints.length = p.node.connectorTokens.length + 2 ∧ groups p.above = maxNesting

/-- Unless the block of a chain is refused at the limit of nesting, the chain has one endpoint more
than connectors. -/
theorem parse_chains_counted (text : String) {p : Place} (hp : p ∈ (parse text).tree.places)
    (hkind : p.node.kind? = some .shapeConnection) :
    Counted p ∧ (groups p.above < maxNesting →
      p.node.endpoints.length = p.node.connectorTokens.length + 1) := by
  have hadmitted := (parse_admitted text p hp).connection hkind
  obtain ⟨⟨k, hk, hconforms⟩, -⟩ := parse_lawful text p.node (place_node hp)
  obtain rfl : k = .shapeConnection := Option.some.inj (hk.symm.trans hkind)
  obtain ⟨e, u, w, hs, he, hu, hw⟩ := hconforms
  obtain ⟨htidy, hrefused⟩ := chain_symbols he hu hw
  rw [← hs] at htidy hrefused
  have hcounted : Counted p := by
    constructor
    · intro h
      rw [endpoints, endpoints_count, connectorTokens, ownTokens, connectors_count]
      exact htidy h
    · intro h
      rw [endpoints, endpoints_count, connectorTokens, ownTokens, connectors_count]
      exact ⟨hrefused h, hadmitted h⟩
  refine ⟨hcounted, fun hroom => hcounted.tidy ?_⟩
  by_contra h
  exact absurd (hadmitted h) (Nat.ne_of_lt hroom)

theorem left_out_counted :
    let p := (parse "a -> -- b: l {near: x}").tree.places.get ⟨1, by decide +kernel⟩
    p.node.kind? = some .shapeConnection ∧ Counted p ∧
      (groups p.above < maxNesting →
        p.node.endpoints.length = p.node.connectorTokens.length + 1) := by
  intro p
  have hkind : p.node.kind? = some .shapeConnection := by decide +kernel
  exact ⟨hkind, parse_chains_counted "a -> -- b: l {near: x}" (List.get_mem _ _) hkind⟩

def towerWords (n : Nat) : List Rendering.Word :=
  List.replicate n .opening ++ [.literal "x", .connector .forward, .literal "y", .opening]

def tower : String := .ofList (Rendering.spell (towerWords maxNesting))

def isOverfull (n : Tree) : Bool :=
  n.isKind .shapeConnection && n.connectorTokens.length == 1 && n.endpoints.length == 3

theorem tower_separate (n : Nat) : (towerWords n).IsChain Rendering.Separate := by
  induction n with
  | zero => simp [towerWords, Rendering.Separate]
  | succ n ih => exact List.isChain_cons.mpr ⟨fun _ _ => trivial, ih⟩

theorem tower_tokens : (tokenize tower).1 = Rendering.tokens 0 (towerWords maxNesting) := by
  have htext : Scanner.ofText tower =
      ⟨Rendering.spell (towerWords maxNesting), 0, false, [], []⟩ := by
    simp [Scanner.ofText, tower]
  rw [tokenize, htext, Rendering.words_scan _ (tower_separate _)]

theorem group_unclosed {opening closing : TokenKind} {ts : List Token}
    (h : ∀ t ∈ ts, t.kind ≠ closing) (depth : Nat) :
    groupLength? opening closing depth ts = some ts.length := by
  induction ts generalizing depth with
  | nil => rfl
  | cons t ts ih =>
    obtain ⟨ht, hts⟩ := List.forall_mem_cons.mp h
    simp only [groupLength?, if_neg ht, ih hts]
    split <;> rfl

theorem tower_unclosed (n o : Nat) :
    ∀ t ∈ Rendering.tokens o (towerWords n), t.kind ≠ .rightBrace := by
  induction n generalizing o with
  | zero => simp [towerWords, Rendering.tokens, Rendering.Word.token, Rendering.Word.kind]
  | succ n ih =>
    exact List.forall_mem_cons.mpr ⟨by simp [Rendering.Word.token, Rendering.Word.kind], ih _⟩

section

variable {b : NodeKind → Scope → Rule} {a : Rule} {scope : Scope} {t : Token} {ts : List Token}
  (size : Nat) (hscope : scope ≠ .block) (ht : t.kind = .leftBrace)
  (hopen : ∀ u ∈ ts, u.kind ≠ .rightBrace)

include hscope ht hopen

theorem statement_opens :
    (b .subShapeDefinition .shape ⟨t :: ts, size⟩).trees <+:
      (item b a scope ⟨t :: ts, size⟩).trees := by
  have hcurrent : Cursor.current? ⟨t :: ts, size⟩ = some .leftBrace := by
    simp [Cursor.current?, ht]
  have hblock : blockBeforeConnector? ⟨t :: ts, size⟩ = some false := by
    have hall : ∀ u ∈ t :: ts, u.kind ≠ .rightBrace :=
      List.forall_mem_cons.mpr ⟨by simp [ht], hopen⟩
    simp [blockBeforeConnector?, group_unclosed hall, Cursor.drop, Cursor.peek?]
  have hstatement : (statement b a scope ⟨t :: ts, size⟩).trees =
      (b .subShapeDefinition .shape ⟨t :: ts, size⟩).trees := by
    simp only [statement, hcurrent, hblock]
    cases scope with
    | document => simp [bareBlock, seq, andThen, report, Output.append, skip]
    | shape => rfl
    | block => exact absurd rfl hscope
  simp only [item, hcurrent]
  rw [← hstatement]
  exact List.prefix_append _ _

theorem statements_open :
    (b .subShapeDefinition .shape ⟨t :: ts, size⟩).trees <+:
      (statements b a scope ⟨t :: ts, size⟩).trees := by
  have htrivia : trivia ⟨t :: ts, size⟩ = skip ⟨t :: ts, size⟩ := by
    simp [trivia, take, triviaLength, Token.isTrivia, ht, TokenKind.isTrivia, skip, Cursor.drop]
  have htest : inStatements scope ⟨t :: ts, size⟩ = true := by
    simp [inStatements, Cursor.current?, ht]
  have hround : (b .subShapeDefinition .shape ⟨t :: ts, size⟩).trees <+:
      (seq [item b a scope, trivia] ⟨t :: ts, size⟩).trees :=
    (statement_opens size hscope ht hopen).trans (List.prefix_append _ _)
  have hmany : (b .subShapeDefinition .shape ⟨t :: ts, size⟩).trees <+:
      (many (inStatements scope) (seq [item b a scope, trivia]) ⟨t :: ts, size⟩).trees := by
    rw [many, if_pos htest]
    dsimp only
    split
    · exact hround.trans (List.prefix_append _ _)
    · exact hround
  simp only [Grammar.statements, seq, andThen, htrivia, skip, Output.append, List.nil_append,
    List.append_nil]
  exact hmany

end

theorem tower_overfull (n : Nat) : ∀ o scope, o + n = maxNesting → scope ≠ .block →
    (nodesAll (statements (braced n) (array n) scope
      ⟨Rendering.tokens o (towerWords n), tower.utf8ByteSize⟩).trees).any isOverfull = true := by
  induction n with
  | zero =>
    intro o scope ho hscope
    obtain rfl : o = maxNesting := ho
    cases scope with
    | document => decide +kernel
    | shape => decide +kernel
    | block => exact absurd rfl hscope
  | succ n ih =>
    intro o scope ho hscope
    have hinside := ih (o + 1) .shape (by omega) (by simp)
    obtain ⟨rest, hrest⟩ := statements_open (b := braced (n + 1)) (a := array (n + 1))
      (t := Rendering.Word.opening.token o) tower.utf8ByteSize hscope rfl
      (tower_unclosed n (o + 1))
    change (nodesAll (statements _ _ _
      ⟨Rendering.Word.opening.token o :: Rendering.tokens (o + 1) (towerWords n), _⟩).trees).any
        isOverfull = true
    rw [← hrest, Nesting.braced_enclosed]
    simp [Nesting.enclosed, nodesAll, nodes, hinside]

theorem deep_chain_overfull :
    ∃ n ∈ (parse tower).tree.nodes, n.kind? = some .shapeConnection ∧ n.connectorTokens.length = 1 ∧
      n.endpoints.length = 3 := by
  have hdeep := tower_overfull maxNesting 0 .document (Nat.zero_add _) (by simp)
  have hnodes (text : String) (n : Tree)
      (h : n ∈ nodesAll (document ⟨(tokenize text).1, text.utf8ByteSize⟩).trees) :
      n ∈ (parse text).tree.nodes := List.mem_cons_of_mem _ h
  rw [← tower_tokens] at hdeep
  obtain ⟨n, hn, hover⟩ := List.any_eq_true.mp hdeep
  simp only [isOverfull, Bool.and_eq_true, beq_iff_eq] at hover
  obtain ⟨⟨hkind, hconnectors⟩, hendpoints⟩ := hover
  exact ⟨n, hnodes tower n hn, by simpa [isKind] using hkind, hconnectors, hendpoints⟩

end DiagramText.ChainLengths
