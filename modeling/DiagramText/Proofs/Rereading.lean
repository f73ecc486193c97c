import DiagramText.Proofs.Rendering

/-!
# Reading a written diagram

The grammar reads the words of a written diagram statement by statement. Each
rule takes just the words of its part, whatever statement follows, and reports
nothing as long as bodies nest no deeper than the grammar allows. So the tree
of a written diagram is known node by node.
-/

set_option autoImplicit false

namespace DiagramText.Rereading
open Rule Lookahead Grammar Rendering Text Measures

def nameTree (o : Nat) (n : Name) : Tree :=
  .node .shapeId o ((tokens o (nameWords n)).map .token)

def labelTrees (o : Nat) : Option String → List Tree
  | none => []
  | some text =>
    [.token (Word.colon.token o), .token (Word.space.token (o + 1)),
      .node .labelDefinition (o + 2) [.token ((Word.literal text).token (o + 2))]]

/-- The connector of a link between its blanks, and the path of its target. -/
def linkTrees (o : Nat) (l : Link) : List Tree :=
  (tokens o [.space, .connector l.connector, .space]).map .token ++
    [nameTree (o + width [.space, .connector l.connector, .space]) l.target]

def linksTrees (o : Nat) : List Link → List Tree
  | [] => []
  | l :: ls => linkTrees o l ++ linksTrees (o + width (linkWords l)) ls

mutual

def itemTree (o : Nat) : Item → Tree
  | .shape name label body =>
    .node .shapeDefinition o
      (nameTree o name :: (labelTrees (o + width (nameWords name)) label ++
        bodyTrees (o + width (nameWords name ++ labelWords label)) body))
  | .chain source link links label =>
    .node .shapeConnection o
      (nameTree o source :: (linksTrees (o + width (nameWords source)) (link :: links) ++
        labelTrees (o + width (nameWords source ++ (link :: links).flatMap linkWords)) label))

def bodyTrees (o : Nat) : Option (List Item) → List Tree
  | none => []
  | some items =>
    [.token (Word.space.token o),
      .node .subShapeDefinition (o + 1)
        (.token (Word.opening.token (o + 1)) :: .token (Word.newline.token (o + 2)) ::
          (rowTrees (o + 3) items ++
            [.token (Word.closing.token (o + 3 + width (rowWords items)))]))]

def rowTrees (o : Nat) : List Item → List Tree
  | [] => []
  | item :: items =>
    itemTree o item :: .token (Word.newline.token (o + width (itemWords item))) ::
      rowTrees (o + width (itemWords item) + 1) items

end

/-- The kind of the next token that is not trivia. -/
def nextKind (ts : List Token) : Option TokenKind := (ts.find? (!·.isTrivia)).map (·.kind)

/-- In front of the rest the rule takes just these tokens for these trees, without a report. -/
def Takes (p : Rule) (ts : List Token) (xs : List Tree) (rest : List Token) : Prop :=
  ∀ size, p ⟨ts ++ rest, size⟩ = ⟨xs, [], ⟨rest, size⟩, false⟩

section

variable {p : Rule} {ps : List Rule} {t : Token} {ts us rest : List Token} {xs ys : List Tree}

theorem skip_takes : Takes skip [] [] rest := fun _ => rfl

theorem take_takes {length : List Token → Nat} (h : length (ts ++ rest) = ts.length) :
    Takes (take length) ts (ts.map .token) rest := by
  intro size
  simp [take, Cursor.drop, h]

theorem bump_takes : Takes bump [t] [.token t] rest :=
  take_takes (by simp)

theorem trivia_skips (h : triviaLength rest = 0) : Takes trivia [] [] rest :=
  take_takes h

theorem trivia_takes (ht : t.isTrivia = true) (h : triviaLength rest = 0) :
    Takes trivia [t] [.token t] rest := by
  apply take_takes
  have hnone : rest.takeWhile (·.isTrivia) = [] := List.length_eq_zero_iff.mp h
  simp [triviaLength, ht, hnone]

theorem trivia_none (h : t.isTrivia = false) (ts : List Token) : triviaLength (t :: ts) = 0 := by
  simp [triviaLength, h]

theorem node_takes (kind : NodeKind) {o : Nat} (ho : ts.head?.map (·.start) = some o)
    (h : Takes p ts xs rest) : Takes (node kind p) ts [.node kind o xs] rest := by
  intro size
  cases ts with
  | nil => simp at ho
  | cons t ts =>
    obtain rfl : t.start = o := by simpa using ho
    rw [node, h size]
    rfl

theorem seq_takes (hp : Takes p ts xs (us ++ rest)) (hps : Takes (seq ps) us ys rest) :
    Takes (seq (p :: ps)) (ts ++ us) (xs ++ ys) rest := by
  intro size
  rw [seq, andThen, List.append_assoc, hp size, hps size]
  rfl

/-- What comes after the rule has nothing to take. -/
theorem seq_done (hp : Takes p ts xs rest) (hps : Takes (seq ps) [] [] rest) :
    Takes (seq (p :: ps)) ts xs rest := by
  intro size
  have hrest : seq ps ⟨rest, size⟩ = ⟨[], [], ⟨rest, size⟩, false⟩ := hps size
  rw [seq, andThen, hp size, hrest]
  simp [Output.append]

theorem seq_last (hp : Takes p ts xs rest) : Takes (seq [p]) ts xs rest := seq_done hp skip_takes

theorem whenNext_takes {test : TokenKind → Bool} (h : (nextKind (ts ++ rest)).any test = true)
    (hp : Takes p ts xs rest) : Takes (whenNext test p) ts xs rest := by
  intro size
  have hnext : (Cursor.peek? ⟨ts ++ rest, size⟩).any test = true := h
  rw [whenNext, if_pos hnext, hp size]

theorem whenNext_skips {test : TokenKind → Bool} (h : (nextKind rest).any test = false) :
    Takes (whenNext test p) [] [] rest := by
  intro size
  have hnext : ¬(Cursor.peek? ⟨[] ++ rest, size⟩).any test = true := by
    rw [Bool.not_eq_true]
    exact h
  rw [whenNext, if_neg hnext]
  rfl

theorem many_stops {test : Cursor → Bool} (h : ∀ size, test ⟨rest, size⟩ = false) :
    Takes (many test p) [] [] rest := by
  intro size
  rw [many, List.nil_append, if_neg (by simp [h size])]
  rfl

theorem many_rounds {test : Cursor → Bool} (hne : ts ≠ [])
    (ht : ∀ size, test ⟨ts ++ us ++ rest, size⟩ = true) (hp : Takes p ts xs (us ++ rest))
    (hps : Takes (many test p) us ys rest) : Takes (many test p) (ts ++ us) (xs ++ ys) rest := by
  intro size
  have hshort : (us ++ rest).length < (ts ++ (us ++ rest)).length := by
    have hpos := List.length_pos_iff.mpr hne
    simp only [List.length_append]
    omega
  rw [many, if_pos (ht size), List.append_assoc, hp size]
  simp only [hps size]
  rw [if_pos hshort]
  rfl

end

theorem width_append (vs ws : List Word) : width (vs ++ ws) = width vs + width ws := by
  simp [width, spell]

theorem tokens_append (o : Nat) (vs ws : List Word) :
    tokens o (vs ++ ws) = tokens o vs ++ tokens (o + width vs) ws := by
  induction vs generalizing o with
  | nil => simp [tokens, width, spell]
  | cons v vs ih => simp [tokens, ih, width, spell, Nat.add_assoc]

theorem tokens_length (o : Nat) (ws : List Word) : (tokens o ws).length = ws.length := by
  induction ws generalizing o with
  | nil => rfl
  | cons w ws ih => simp [tokens, ih]

theorem next_word {w : Word} (h : w.kind.isTrivia = false) (o : Nat) (ws : List Word)
    (rest : List Token) : nextKind (tokens o (w :: ws) ++ rest) = some w.kind := by
  simp [nextKind, tokens, Word.token, Token.isTrivia, h]

theorem next_space (o : Nat) (ws : List Word) (rest : List Token) :
    nextKind (tokens o (.space :: ws) ++ rest) = nextKind (tokens (o + 1) ws ++ rest) := by
  have hsize : byteSize Word.space.spelling = 1 := rfl
  simp [nextKind, tokens, Word.token, Token.isTrivia, Word.kind, TokenKind.isTrivia, hsize]

theorem next_label (o : Nat) (label : Option String) (rest : List Token) :
    nextKind (tokens o (labelWords label) ++ rest) =
      if label.isSome then some .colon else nextKind rest := by
  cases label with
  | none => rfl
  | some text => exact next_word rfl o _ rest

theorem next_body (o : Nat) (body : Option (List Item)) (rest : List Token) :
    nextKind (tokens o (bodyWords body) ++ rest) =
      if body.isSome then some .leftBrace else nextKind rest := by
  cases body with
  | none => rfl
  | some items =>
    rw [bodyWords, List.append_assoc, List.cons_append, next_space]
    exact next_word rfl _ _ rest

theorem connector_kind (c : Connector) :
    (Word.connector c).kind.isTrivia = false ∧ (Word.connector c).kind.isConnector = true := by
  cases c <;> exact ⟨rfl, rfl⟩

theorem next_link (o : Nat) (l : Link) (ws : List Word) (rest : List Token) :
    nextKind (tokens o (linkWords l ++ ws) ++ rest) = some (Word.connector l.connector).kind := by
  rw [linkWords, List.append_assoc, List.cons_append, next_space]
  exact next_word (connector_kind l.connector).1 _ _ rest

theorem joint_none {ts : List Token} (h : nextKind ts ≠ some .dot) : jointLength? ts = none := by
  have hnext : nextKind ts = (ts.dropWhile (·.isTrivia)).head?.map (·.kind) := by
    rw [nextKind, List.find?_eq_head?_dropWhile_not]
    simp
  rw [jointLength?, drop_trivia]
  split
  · rfl
  · next dot rest hd =>
    have hdot : dot.kind ≠ .dot := by simpa [hnext, hd] using h
    rw [if_neg hdot]

theorem name_path (n : Name) (o : Nat) {rest : List Token} (h : nextKind rest ≠ some .dot) :
    path (tokens o (nameWords n) ++ rest) = ⟨(nameWords n).length, false⟩ := by
  obtain ⟨first, segments⟩ := n
  have hsegment (o : Nat) (first : String) (us : List Token) :
      segmentLength ((Word.literal first).token o :: us) = 1 ∧
        isKeywordSegment ((Word.literal first).token o :: us) = false := by
    simp [isKeywordSegment, segmentLength, Word.token, Word.kind]
  induction segments generalizing first o with
  | nil =>
    have htokens : tokens o (nameWords ⟨first, []⟩) = [(Word.literal first).token o] := rfl
    rw [htokens, List.singleton_append, path]
    simp [hsegment, joint_none h, nameWords]
  | cons s segments ih =>
    have hwords : nameWords ⟨first, s :: segments⟩ =
        .literal first :: .dot :: nameWords ⟨s, segments⟩ := rfl
    have hjoint (o : Nat) :
        jointLength? (tokens o (.dot :: nameWords ⟨s, segments⟩) ++ rest) = some 1 := by
      simp [nameWords, tokens, Word.token, Word.kind, jointLength?, triviaLength, Token.isTrivia,
        TokenKind.isTrivia, startsSegment]
    rw [hwords, tokens, List.cons_append, path]
    simp only [hsegment, List.drop_succ_cons, List.drop_zero, hjoint]
    simp [tokens, ih]
    omega

theorem name_takes (n : Name) (o : Nat) {rest : List Token} (h : nextKind rest ≠ some .dot) :
    Takes (node .shapeId (take pathLength)) (tokens o (nameWords n)) [nameTree o n] rest := by
  have htake : Takes (take pathLength) (tokens o (nameWords n))
      ((tokens o (nameWords n)).map .token) rest := by
    apply take_takes
    rw [pathLength, name_path n o h, tokens_length]
  exact node_takes .shapeId rfl htake

/-- The tokens end a statement or open its body. -/
def EndsStatement (ts : List Token) : Prop :=
  nextKind ts = some .newline ∨ nextKind ts = some .leftBrace

theorem ends_blank {ts : List Token} (h : EndsStatement ts) :
    ∀ t ∈ ts.takeWhile (!stopsText ·), (t.kind == .whitespace) = true := by
  induction ts with
  | nil => simp
  | cons u ts ih =>
    by_cases hs : stopsText u = true
    · simp [hs]
    -- of the trivia, comments stop the text as a newline and a brace do
    have hblank : u.kind = .whitespace := by
      by_cases hu : u.isTrivia = true
      · cases hk : u.kind <;> simp_all [Token.isTrivia, TokenKind.isTrivia, stopsText]
      · have hnext : nextKind (u :: ts) = some u.kind := by simp [nextKind, hu]
        have hk : u.kind = .newline ∨ u.kind = .leftBrace := by simpa [EndsStatement, hnext] using h
        rcases hk with hk | hk <;> simp [stopsText, hk] at hs
    have hnext : nextKind (u :: ts) = nextKind ts := by
      simp [nextKind, Token.isTrivia, hblank, TokenKind.isTrivia]
    intro t ht
    simp only [List.takeWhile_cons, hs, Bool.not_false, if_true, List.mem_cons] at ht
    rcases ht with rfl | ht
    · simp [hblank]
    · exact ih (by rwa [EndsStatement, ← hnext]) t ht

theorem text_one {t : Token} {rest : List Token} (ht : t.kind = .string) (h : EndsStatement rest) :
    textLength (t :: rest) = 1 := by
  have hblank := ends_blank h
  have hstops : stopsText t = false := by simp [stopsText, ht]
  rw [textLength, runLength, List.takeWhile_cons, if_pos (by simp [hstops]), List.reverse_cons,
    List.dropWhile_append_of_pos (by simpa using hblank)]
  simp [ht]

theorem label_takes (label : Option String) (o : Nat) {rest : List Token} (h : EndsStatement rest) :
    Takes Grammar.label (tokens o (labelWords label)) (labelTrees o label) rest := by
  cases label with
  | none =>
    apply whenNext_skips
    rcases h with h | h <;> rw [h] <;> rfl
  | some text =>
    have htokens : tokens o (labelWords (some text)) =
        [] ++ ([Word.colon.token o] ++
          ([Word.space.token (o + 1)] ++ [(Word.literal text).token (o + 2)])) := rfl
    have htext : Takes (node .labelDefinition (take textLength))
        [(Word.literal text).token (o + 2)]
        [.node .labelDefinition (o + 2) [.token ((Word.literal text).token (o + 2))]] rest :=
      node_takes .labelDefinition rfl (take_takes (text_one rfl h))
    have hafter : Takes
        (whenNext startsText (seq [trivia, node .labelDefinition (take textLength)]))
        ([Word.space.token (o + 1)] ++ [(Word.literal text).token (o + 2)])
        ([.token (Word.space.token (o + 1))] ++
          [.node .labelDefinition (o + 2) [.token ((Word.literal text).token (o + 2))]]) rest := by
      apply whenNext_takes
      · rfl
      · exact seq_takes (trivia_takes rfl rfl) (seq_last htext)
    rw [htokens]
    apply whenNext_takes
    · rfl
    · exact seq_takes (trivia_skips rfl) (seq_takes bump_takes (seq_last hafter))

section

variable {braced : NodeKind → Scope → Rule} {array : Rule} {rest : List Token}

theorem source_takes (n : Name) (o : Nat) (h : nextKind rest ≠ some .dot) :
    Takes (source braced) (tokens o (nameWords n)) [nameTree o n] rest :=
  name_takes n o h

theorem target_takes (k : TokenKind) (n : Name) (o : Nat) (h : nextKind rest ≠ some .dot) :
    Takes (target braced k) (tokens o (nameWords n)) [nameTree o n] rest :=
  name_takes n o h

theorem link_takes (l : Link) (o : Nat) (h : nextKind rest ≠ some .dot) :
    Takes (link braced) (tokens o (linkWords l)) (linkTrees o l) rest := by
  obtain ⟨m, hblanks⟩ : ∃ m, tokens o [.space, .connector l.connector, .space] =
      [Word.space.token o, (Word.connector l.connector).token (o + 1), Word.space.token m] :=
    ⟨_, rfl⟩
  have hname := @target_takes braced rest (Word.connector l.connector).kind l.target
    (o + width [.space, .connector l.connector, .space]) h
  have hparts : Takes
      (seq [trivia, bump, trivia, target braced (Word.connector l.connector).kind])
      (tokens o (linkWords l)) (linkTrees o l) rest := by
    rw [linkWords, tokens_append, linkTrees, hblanks]
    show Takes _
      ([Word.space.token o] ++ ([(Word.connector l.connector).token (o + 1)] ++
        ([Word.space.token m] ++ tokens _ (nameWords l.target))))
      ([.token (Word.space.token o)] ++ ([.token ((Word.connector l.connector).token (o + 1))] ++
        ([.token (Word.space.token m)] ++ [nameTree _ l.target]))) rest
    have hconnector : Token.isTrivia ((Word.connector l.connector).token (o + 1)) = false :=
      (connector_kind l.connector).1
    exact seq_takes (trivia_takes rfl (trivia_none hconnector _))
      (seq_takes bump_takes (seq_takes (trivia_takes rfl rfl) (seq_last hname)))
  intro size
  have hpeek : Cursor.peek? ⟨tokens o (linkWords l) ++ rest, size⟩ =
      some (Word.connector l.connector).kind := by
    have hnext := next_link o l [] rest
    rwa [List.append_nil] at hnext
  rw [link, hpeek]
  exact hparts size

/-- Neither a link nor another segment follows. -/
def Past (ts : List Token) : Prop :=
  ∀ k, nextKind ts = some k → k ≠ .dot ∧ k.isConnector = false

theorem past_links (ls : List Link) (o : Nat) (h : Past rest) :
    nextKind (tokens o (ls.flatMap linkWords) ++ rest) ≠ some .dot := by
  cases ls with
  | nil => exact fun hdot => (h _ hdot).1 rfl
  | cons l ls =>
    rw [List.flatMap_cons, next_link]
    cases l.connector <;> simp [Word.kind]

theorem links_take (ls : List Link) (o : Nat) (h : Past rest) :
    Takes (many (·.peek?.any (·.isConnector)) (link braced)) (tokens o (ls.flatMap linkWords))
      (linksTrees o ls) rest := by
  induction ls generalizing o with
  | nil =>
    apply many_stops
    intro size
    show (nextKind rest).any (·.isConnector) = false
    cases hk : nextKind rest with
    | none => rfl
    | some k => exact (h k hk).2
  | cons l ls ih =>
    have hnext := next_link o l (ls.flatMap linkWords) rest
    rw [tokens_append] at hnext
    rw [List.flatMap_cons, tokens_append, linksTrees]
    apply many_rounds
    · simp [linkWords, tokens]
    · intro size
      show (nextKind _).any (·.isConnector) = true
      rw [hnext]
      exact (connector_kind l.connector).2
    · exact link_takes l o (past_links ls _ h)
    · exact ih _

theorem body_skips (kind : NodeKind) (scope : Scope) (h : nextKind rest = some .newline) :
    Takes (Grammar.body (braced kind scope)) [] [] rest := by
  apply whenNext_skips
  rw [h]
  rfl

theorem past_label (label : Option String) (o : Nat) (h : EndsStatement rest) :
    Past (tokens o (labelWords label) ++ rest) := by
  intro k hk
  rw [next_label] at hk
  cases label with
  | none =>
    obtain rfl | rfl : k = .newline ∨ k = .leftBrace := by
      rcases h with h | h <;> simp_all
    · exact ⟨by decide, rfl⟩
    · exact ⟨by decide, rfl⟩
  | some text =>
    obtain rfl : TokenKind.colon = k := by simpa using hk
    exact ⟨by decide, rfl⟩

theorem statement_named (n : Name) (o : Nat) {scope : Scope} (hs : scope ≠ .block) (size : Nat)
    (h : nextKind rest ≠ some .dot) :
    statement braced array scope ⟨tokens o (nameWords n) ++ rest, size⟩ =
      if (nextKind rest).any (·.isConnector) then
        connection braced ⟨tokens o (nameWords n) ++ rest, size⟩
      else shapeDefinition braced ⟨tokens o (nameWords n) ++ rest, size⟩ := by
  have hnamed : statement braced array scope ⟨tokens o (nameWords n) ++ rest, size⟩ =
      named braced array scope ⟨tokens o (nameWords n) ++ rest, size⟩ := rfl
  have hdrop : (tokens o (nameWords n) ++ rest).drop (nameWords n).length = rest :=
    List.drop_left' (tokens_length o (nameWords n))
  rw [hnamed, named]
  simp only [name_path n o h, Cursor.drop, hdrop, hs, Bool.false_eq_true, or_self, if_false]
  rfl

theorem chain_takes {scope : Scope} (hs : scope ≠ .block) (source : Name) (l : Link)
    (ls : List Link) (label : Option String) (o : Nat) (h : nextKind rest = some .newline) :
    Takes (statement braced array scope) (tokens o (itemWords (.chain source l ls label)))
      [itemTree o (.chain source l ls label)] rest := by
  have hpast := past_label label (o + width (nameWords source ++ (l :: ls).flatMap linkWords))
    (.inl h)
  have hdot := past_links (l :: ls) (o + width (nameWords source)) hpast
  have hsource := @source_takes braced _ source o hdot
  have hlinks := @links_take braced _ (l :: ls) (o + width (nameWords source)) hpast
  have hlabel := @label_takes label
    (o + width (nameWords source ++ (l :: ls).flatMap linkWords)) rest (.inl h)
  have hends := seq_done hlabel (seq_last (@body_skips braced rest .blockDefinition .block h))
  rw [← List.append_assoc] at hsource hdot
  have hnext : (nextKind (tokens (o + width (nameWords source)) ((l :: ls).flatMap linkWords) ++
      tokens (o + width (nameWords source ++ (l :: ls).flatMap linkWords)) (labelWords label) ++
        rest)).any (·.isConnector) = true := by
    rw [List.append_assoc, List.flatMap_cons, next_link]
    exact (connector_kind l.connector).2
  rw [itemWords, tokens_append, tokens_append, List.append_assoc]
  intro size
  rw [List.append_assoc, statement_named source o hs size hdot, if_pos hnext, ← List.append_assoc]
  exact node_takes .shapeConnection rfl (seq_takes hsource (seq_takes hlinks hends)) size

theorem shape_takes {scope : Scope} (hs : scope ≠ .block) (name : Name) (label : Option String)
    (body : Option (List Item)) (o : Nat) (h : nextKind rest = some .newline)
    (hbody : Takes (Grammar.body (braced .subShapeDefinition .shape))
      (tokens (o + width (nameWords name ++ labelWords label)) (bodyWords body))
      (bodyTrees (o + width (nameWords name ++ labelWords label)) body) rest) :
    Takes (statement braced array scope) (tokens o (itemWords (.shape name label body)))
      [itemTree o (.shape name label body)] rest := by
  have hends : EndsStatement
      (tokens (o + width (nameWords name ++ labelWords label)) (bodyWords body) ++
      rest) := by
    rw [EndsStatement, next_body]
    cases body with
    | none => exact .inl h
    | some items => exact .inr rfl
  have hpast := past_label label (o + width (nameWords name)) hends
  rw [← List.append_assoc] at hpast
  have hdot : nextKind _ ≠ some .dot := fun hdot => (hpast _ hdot).1 rfl
  have hname := name_takes name o hdot
  have hlabel := label_takes label (o + width (nameWords name)) hends
  have hnext : ¬(nextKind (tokens (o + width (nameWords name)) (labelWords label) ++
      tokens (o + width (nameWords name ++ labelWords label)) (bodyWords body) ++ rest)).any
        (·.isConnector) = true := by
    intro hany
    obtain ⟨k, hk, hc⟩ := (Option.any_eq_true _ _).mp hany
    simp [(hpast k hk).2] at hc
  rw [itemWords, tokens_append, tokens_append, List.append_assoc]
  intro size
  rw [List.append_assoc, statement_named name o hs size hdot, if_neg hnext, ← List.append_assoc]
  exact node_takes .shapeDefinition rfl (seq_takes hname (seq_takes hlabel (seq_last hbody))) size

/-- The rounds of a statement list: statements and the newlines between them. -/
def rounds (braced : NodeKind → Scope → Rule) (array : Rule) (scope : Scope) : Rule :=
  many (inStatements scope) (seq [Grammar.item braced array scope, trivia])

theorem terminated_takes (h : nextKind rest = some .newline) : Takes terminated [] [] rest := by
  intro size
  have hpeek : Cursor.peek? ⟨[] ++ rest, size⟩ = some .newline := h
  rw [terminated, hpeek]
  rfl

theorem closeBlock_takes (opening : Span) (o : Nat) :
    Takes (closeBlock opening) [Word.closing.token o] [.token (Word.closing.token o)] rest :=
  bump_takes

theorem statements_takes {scope : Scope} {ts : List Token} {xs : List Tree}
    (htrivia : triviaLength (ts ++ rest) = 0)
    (h : Takes (rounds braced array scope) ts xs rest) :
    Takes (statements braced array scope) ts xs rest :=
  seq_takes (trivia_skips htrivia) (seq_last h)

theorem newline_round {scope : Scope} (o : Nat) (h : triviaLength rest = 0) :
    Takes (seq [Grammar.item braced array scope, trivia]) [Word.newline.token o]
      [.token (Word.newline.token o)] rest := by
  have hbump : Takes (Grammar.item braced array scope) [Word.newline.token o]
      [.token (Word.newline.token o)] rest := bump_takes
  exact seq_done hbump (seq_last (trivia_skips h))

theorem item_literal (item : Item) : ∃ text ws, itemWords item = .literal text :: ws := by
  cases item <;> exact ⟨_, _, rfl⟩

theorem item_round {scope : Scope} {item : Item} {o : Nat} (h : nextKind rest = some .newline)
    (htrivia : triviaLength rest = 0)
    (hitem : Takes (statement braced array scope) (tokens o (itemWords item)) [itemTree o item]
      rest) :
    Takes (seq [Grammar.item braced array scope, trivia]) (tokens o (itemWords item))
      [itemTree o item] rest := by
  have hstatement := seq_done hitem (seq_last (terminated_takes h))
  have hread : Takes (Grammar.item braced array scope) (tokens o (itemWords item))
      [itemTree o item] rest := by
    obtain ⟨text, ws, hwords⟩ := item_literal item
    rw [hwords] at hstatement ⊢
    exact hstatement
  exact seq_done hread (seq_last (trivia_skips htrivia))

theorem row_trivia (items : List Item) (o : Nat) (h : triviaLength rest = 0) :
    triviaLength (tokens o (rowWords items) ++ rest) = 0 := by
  cases items with
  | nil => exact h
  | cons item items =>
    obtain ⟨text, ws, hwords⟩ := item_literal item
    rw [rowWords, hwords]
    exact trivia_none rfl _

theorem newline_rounds {scope : Scope} (o : Nat) {us : List Token} {ys : List Tree}
    (htrivia : triviaLength (us ++ rest) = 0) (hus : Takes (rounds braced array scope) us ys rest) :
    Takes (rounds braced array scope) (Word.newline.token o :: us)
      (.token (Word.newline.token o) :: ys) rest := by
  refine many_rounds (List.cons_ne_nil _ []) (fun size => ?_) (newline_round o htrivia) hus
  cases scope <;> rfl

theorem row_cons {scope : Scope} {item : Item} {items : List Item} {o : Nat}
    (htrivia : triviaLength rest = 0)
    (hitem : Takes (statement braced array scope) (tokens o (itemWords item)) [itemTree o item]
      (tokens (o + width (itemWords item)) (.newline :: rowWords items) ++ rest))
    (hrow : Takes (rounds braced array scope)
      (tokens (o + width (itemWords item) + 1) (rowWords items))
      (rowTrees (o + width (itemWords item) + 1) items) rest) :
    Takes (rounds braced array scope) (tokens o (rowWords (item :: items)))
      (rowTrees o (item :: items)) rest := by
  have hround := item_round rfl rfl hitem
  rw [rowWords, tokens_append, rowTrees]
  obtain ⟨text, ws, hwords⟩ := item_literal item
  refine many_rounds (by simp [hwords, tokens]) (fun size => ?_) hround
    (newline_rounds _ (row_trivia items _ htrivia) hrow)
  rw [hwords]
  cases scope <;> rfl

end

theorem body_some {n : Nat} {items : List Item} {o : Nat} {rest : List Token}
    (hrow : Takes (rounds (braced n) (array n) .shape) (tokens (o + 3) (rowWords items))
      (rowTrees (o + 3) items)
      ([Word.closing.token (o + 3 + width (rowWords items))] ++ rest)) :
    Takes (Grammar.body (braced (n + 1) .subShapeDefinition .shape))
      (tokens o (bodyWords (some items))) (bodyTrees o (some items)) rest := by
  have hwords : tokens o (bodyWords (some items)) = [Word.space.token o] ++
      ([Word.opening.token (o + 1)] ++ (tokens (o + 2) (.newline :: rowWords items) ++
        [Word.closing.token (o + 3 + width (rowWords items))])) := by
    have hwidth : o + width ([.space, .opening, .newline] ++ rowWords items) =
        o + 3 + width (rowWords items) := by
      have hthree : width [.space, .opening, .newline] = 3 := rfl
      rw [width_append, hthree, Nat.add_assoc]
    rw [bodyWords, tokens_append, hwidth]
    rfl
  have hstatements : Takes (statements (braced n) (array n) .shape)
      (tokens (o + 2) (.newline :: rowWords items))
      (.token (Word.newline.token (o + 2)) :: rowTrees (o + 3) items)
      ([Word.closing.token (o + 3 + width (rowWords items))] ++ rest) :=
    statements_takes rfl (newline_rounds _ (row_trivia items _ rfl) hrow)
  have hbraced : Takes (braced (n + 1) .subShapeDefinition .shape)
      ([Word.opening.token (o + 1)] ++ (tokens (o + 2) (.newline :: rowWords items) ++
        [Word.closing.token (o + 3 + width (rowWords items))])) _ rest := fun size =>
    node_takes .subShapeDefinition rfl (seq_takes bump_takes (seq_takes hstatements
      (seq_last (closeBlock_takes (Word.opening.token (o + 1)).span _)))) size
  rw [hwords]
  exact whenNext_takes rfl (seq_takes (trivia_takes rfl rfl) (seq_last hbraced))

mutual

theorem item_takes (item : Item) (n : Nat) {scope : Scope} (hs : scope ≠ .block)
    (hd : depth item ≤ n) (o : Nat) {rest : List Token} (h : nextKind rest = some .newline) :
    Takes (statement (braced n) (array n) scope) (tokens o (itemWords item)) [itemTree o item]
      rest := by
  cases item with
  | shape name label body =>
    exact shape_takes hs name label body o h (body_takes body n hd _ h)
  | chain source link links label => exact chain_takes hs source link links label o h

theorem body_takes (body : Option (List Item)) (n : Nat) (hd : bodyDepth body ≤ n) (o : Nat)
    {rest : List Token} (h : nextKind rest = some .newline) :
    Takes (Grammar.body (braced n .subShapeDefinition .shape)) (tokens o (bodyWords body))
      (bodyTrees o body) rest := by
  cases body with
  | none => exact body_skips .subShapeDefinition .shape h
  | some items =>
    cases n with
    | zero => simp [bodyDepth] at hd
    | succ n =>
      -- a body takes one level of the room, as it does of the depth
      have hn : rowDepth items ≤ n := Nat.le_of_succ_le_succ hd
      exact body_some (row_takes items n (by simp) hn _ (fun _ => rfl) rfl)

theorem row_takes (items : List Item) (n : Nat) {scope : Scope} (hs : scope ≠ .block)
    (hd : rowDepth items ≤ n) (o : Nat) {rest : List Token}
    (hstop : ∀ size, inStatements scope ⟨rest, size⟩ = false) (htrivia : triviaLength rest = 0) :
    Takes (rounds (braced n) (array n) scope) (tokens o (rowWords items)) (rowTrees o items)
      rest := by
  cases items with
  | nil => exact many_stops hstop
  | cons item items =>
    obtain ⟨hitem, hitems⟩ := Nat.max_le.mp hd
    exact row_cons htrivia (item_takes item n hs hitem o rfl)
      (row_takes items n hs hitems _ hstop htrivia)

end

/-- The grammar reads a written diagram as its tree and has nothing to report. -/
theorem document_takes {items : List Item} (h : rowDepth items ≤ maxNesting) :
    Takes document (tokens 0 (rowWords items)) (rowTrees 0 items) [] :=
  statements_takes (row_trivia items 0 rfl)
    (row_takes items maxNesting (by simp) h 0 (fun _ => rfl) rfl)

end DiagramText.Rereading
