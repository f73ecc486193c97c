import DiagramText.Proofs.StatementLists

/-!
# Nested groups and the document

Arrays and blocks call each other one level down, so what their rules do
follows by induction on the room that is left. At the limit a group is kept
unread; everywhere else it is entered, read to the token that closes it or to
the end of the document, and closed or reported. The document is the
statement list around all of them, and it takes every token.
-/

set_option autoImplicit false

namespace DiagramText.Nesting
open Rule Lookahead Grammar Measures Braces Production DiagramText.Derivation Reading Statements
open StatementLists

/-- A node around its opening token, what is inside, and what closes it. -/
def enclosed (kind : NodeKind) (t : Token) (i e : Output) : Output :=
  ⟨[.node kind t.start (.token t :: (i.trees ++ e.trees))], i.diagnostics ++ e.diagnostics,
    e.cursor, i.stuck || e.stuck⟩

def Settled (c : Cursor) : Prop := ∀ k, c.current? = some k → k.isTrivia = false

theorem trivia_settled (c : Cursor) : Settled (trivia c).cursor := by
  intro k hk
  rw [trivia_current] at hk
  obtain ⟨t, ht, rfl⟩ := Option.map_eq_some_iff.mp hk
  simpa [Token.isTrivia] using List.find?_some ht

theorem separator_kind (t : Token) (h : isSeparator t = true) :
    isBrace t.kind = false ∧ t.kind.isTrivia = false ∧ isElement (.token t.kind) = true := by
  simp only [isSeparator, isComma, Bool.or_eq_true, Bool.and_eq_true, beq_iff_eq] at h
  rcases h with (h | h) | ⟨h, -⟩ <;> rw [h] <;> exact ⟨rfl, rfl, rfl⟩

theorem element_yields {nested : Rule} (hn : ∀ c, c.current? = some .leftBracket →
      Yields Derives c (node .attributeValue nested c) (· = [.node .attributeValue]) ∧
        Shrinks c (node .attributeValue nested c)) {c : Cursor} (hs : Settled c)
    (h : inArray c = true) :
    Yields Derives c (element nested c) Elements ∧ Shrinks c (element nested c) := by
  have value {o : Output} (hy : Yields Derives c o (· = [.node .attributeValue])) :
      Yields Derives c o Elements :=
    yields_weaken hy (by rintro w rfl; simp [Elements, isElement])
  obtain ⟨k, hk, hin⟩ := (Option.any_eq_true _ _).mp h
  obtain ⟨t, ts, hc, rfl⟩ := current_cons hk
  have hct : c.tokens = t :: ts := by rw [hc]
  unfold element
  split
  · next hsep =>
    have hsep : isSeparator t = true := by simpa [hct] using hsep
    obtain ⟨hb, ht, he⟩ := separator_kind t hsep
    refine (bump_yields hk hb ht).imp_left fun hy => yields_weaken hy ?_
    rintro w rfl
    simpa [Elements] using he
  · next hsep =>
    split
    · next hl => exact (hn c hl).imp_left value
    · next hl =>
      have hsep : isSeparator t = false := by simpa [hct] using hsep
      have hl : t.kind ≠ .leftBracket := fun h => hl (by rw [hk, h])
      simp only [Bool.not_eq_true', Bool.or_eq_false_iff, beq_eq_false_iff_ne] at hin
      have hpos : 0 < elementLength c.tokens := by
        rw [hct]
        exact element_pos t ts hsep (hs t.kind hk) hl hin.1 hin.2
      exact (leaf_yields hpos (run_le _ _) (.inr ⟨rfl, element_tokens c.tokens⟩)
        ⟨fun _ => run_shut element_blanks hpos, by simp⟩).imp_left value

theorem elements_yields (nested : Rule) (hn : ∀ c, c.current? = some .leftBracket →
      Yields Derives c (node .attributeValue nested c) (· = [.node .attributeValue]) ∧
        Shrinks c (node .attributeValue nested c)) (c : Cursor) :
    Yields Derives c (seq [trivia, many inArray (seq [element nested, trivia])] c) Elements ∧
      inArray (seq [trivia, many inArray (seq [element nested, trivia])] c).cursor = false := by
  have hD := derives_chains
  obtain ⟨hy, -, hend⟩ := many_yields (I := Settled) hD inArray (seq [element nested, trivia])
    (S := Elements) (by simp [Elements]) elements_append
    (fun c hs h => by
      obtain ⟨hy, hsh⟩ := element_yields hn hs h
      have ht := seq_last hD _ (trivia_yields (element nested c).cursor)
      refine ⟨seq_yields hD _ _ hy ht ?_, seq_shrinks hD _ _ hsh ht, trivia_settled _⟩
      rintro u v hu rfl
      simpa using hu)
    (trivia c).cursor (trivia_settled c)
  exact ⟨trivia_first (seq_last hD _ hy), hend⟩

theorem array_enclosed (n : Nat) (t : Token) (ts : List Token) (size : Nat) :
    array (n + 1) ⟨t :: ts, size⟩ =
      let i := seq [trivia, many inArray (seq [element (array n), trivia])] ⟨ts, size⟩
      enclosed .array t i (closeArray t.span i.cursor) := by
  simp [array, node, seq, andThen, bump_cons, Output.append, skip, enclosed, Cursor.offset,
    Cursor.span, Bool.or_assoc]

theorem closing_length {t : Token} {ts : List Token} {size : Nat} {kind : NodeKind} {i e : Output}
    {S : List Symbol → Prop} (hi : Yields Derives ⟨ts, size⟩ i S)
    (he : e.cursor.tokens.length ≤ i.cursor.tokens.length) :
    Shrinks ⟨t :: ts, size⟩ (enclosed kind t i e) := by
  have hl := yields_length derives_chains hi
  simp only [Shrinks, enclosed, List.length_cons] at hl ⊢
  omega

theorem bump_length (c : Cursor) : (bump c).cursor.tokens.length ≤ c.tokens.length := by
  simp [bump, take, Cursor.drop]

/-- A closing token is taken if it is there, and reported as missing otherwise. -/
theorem close_length (k : TokenKind) (d : Cursor → Diagnostic) (c : Cursor) :
    (if c.current? = some k then bump c else report d c).cursor.tokens.length ≤
      c.tokens.length := by
  split
  · exact bump_length c
  · exact le_rfl

theorem array_closes {t : Token} {ts : List Token} {size : Nat} {i : Output}
    (ht : t.kind = .leftBracket) (hi : Yields Derives ⟨ts, size⟩ i Elements) :
    Yields Derives ⟨t :: ts, size⟩ (enclosed .array t i (closeArray t.span i.cursor))
        (· = [.node .array]) ∧
      Shrinks ⟨t :: ts, size⟩ (enclosed .array t i (closeArray t.span i.cursor)) := by
  refine ⟨?_, closing_length hi (close_length _ _ _)⟩
  have hd := hi.derives
  have hs : i.cursor.stop = size := hi.stop
  by_cases h : i.cursor.current? = some .rightBracket
  · obtain ⟨u, us, hc, hu⟩ := current_cons h
    rw [closeArray, if_pos h, hc, bump_cons]
    rw [hc] at hd
    refine ⟨by simp [enclosed, hi.runs], hs, ?_, rfl⟩
    simpa [enclosed] using Derives.closedArray ht hd hi.shape hu
  · rw [closeArray, if_neg h]
    refine ⟨by simp [enclosed, report, hi.runs], hs, ?_, rfl⟩
    have hcur : (⟨i.cursor.tokens, size⟩ : Cursor) = i.cursor := by rw [← hs]
    have ho := Derives.openArray ht hd hi.shape
    rw [hcur] at ho
    simpa [enclosed, report] using ho

theorem array_shut {i : Output} (t : Token) (h : inArray i.cursor = false) :
    Shut (t :: (Tree.tokensAll (i.trees ++ (closeArray t.span i.cursor).trees)))
      (closeArray t.span i.cursor).cursor.tokens := by
  by_cases hc : i.cursor.current? = some .rightBracket
  · obtain ⟨u, us, hu, hk⟩ := current_cons hc
    rw [closeArray, if_pos hc, hu, bump_cons]
    refine .inl ⟨u, ?_, by rw [Token.isTrivia, hk]; rfl⟩
    simp [Tree.tokensAll, Tree.tokens, List.getLast?_cons]
  · rw [closeArray, if_neg hc]
    refine .inr fun u hu hk => ?_
    have hcurrent : i.cursor.current? = some .newline := by
      rw [Cursor.current?, show i.cursor.tokens.head? = some u from hu, Option.map_some, hk]
    simp [inArray, hcurrent] at h

theorem array_yields (n : Nat) (c : Cursor) (h : c.current? = some .leftBracket) :
    Yields Derives c (node .attributeValue (array n) c) (· = [.node .attributeValue]) ∧
      Shrinks c (node .attributeValue (array n) c) := by
  induction n generalizing c with
  | zero => exact deep_value_yields h
  | succ n ih =>
    obtain ⟨t, ts, hc, ht⟩ := current_cons h
    obtain ⟨hi, hend⟩ := elements_yields (array n) (fun c h => ih c h) ⟨ts, c.stop⟩
    obtain ⟨hy, hsh⟩ := array_closes ht hi
    rw [hc, node, array_enclosed]
    exact ⟨⟨hy.runs, hy.stop, .arrayValue hy.derives rfl (array_shut t hend), rfl⟩, hsh⟩

theorem braced_enclosed (n : Nat) (kind : NodeKind) (scope : Scope) (t : Token)
    (ts : List Token) (size : Nat) :
    braced (n + 1) kind scope ⟨t :: ts, size⟩ =
      let i := statements (braced n) (array n) scope ⟨ts, size⟩
      enclosed kind t i (closeBlock t.span i.cursor) := by
  simp [braced, node, seq, andThen, bump_cons, Output.append, skip, enclosed, Cursor.offset,
    Cursor.span]

theorem block_closes {kind : NodeKind} {scope : Scope} {t : Token} {ts : List Token} {size : Nat}
    {i : Output} (hk : bodyScope? kind = some scope) (ht : t.kind = .leftBrace)
    (hi : Yields Derives ⟨ts, size⟩ i (Items scope))
    (hend : i.cursor.current? = none ∨ i.cursor.current? = some .rightBrace) :
    Yields Derives ⟨t :: ts, size⟩ (enclosed kind t i (closeBlock t.span i.cursor))
        (· = [.node kind]) ∧
      Shrinks ⟨t :: ts, size⟩ (enclosed kind t i (closeBlock t.span i.cursor)) := by
  refine ⟨?_, closing_length hi (close_length _ _ _)⟩
  have hd := hi.derives
  have hs : i.cursor.stop = size := hi.stop
  rcases hend with h | h
  · have hnil : i.cursor.tokens = [] := by simpa [Cursor.current?] using h
    have hcur : (⟨[], size⟩ : Cursor) = i.cursor := by rw [← hs, ← hnil]
    rw [closeBlock, if_neg (by simp [h])]
    refine ⟨by simp [enclosed, report, hi.runs], hs, ?_, rfl⟩
    rw [hnil] at hd
    have ho := Derives.openBlock hk ht hd hi.shape
    rw [hcur] at ho
    simpa [enclosed, report, hnil] using ho
  · obtain ⟨u, us, hc, hu⟩ := current_cons h
    rw [closeBlock, if_pos h, hc, bump_cons]
    rw [hc] at hd
    refine ⟨by simp [enclosed, hi.runs], hs, ?_, rfl⟩
    simpa [enclosed] using Derives.closedBlock hk ht hd hi.shape hu

theorem scope_inside {kind : NodeKind} {scope : Scope} (h : bodyScope? kind = some scope) :
    scope ≠ .document := by
  rintro rfl
  cases kind <;> simp [bodyScope?] at h

theorem statements_end {scope : Scope} {c : Cursor} (hs : scope ≠ .document)
    (h : inStatements scope c = false) :
    c.current? = none ∨ c.current? = some .rightBrace := by
  cases hc : c.current? with
  | none => exact .inl rfl
  | some k =>
    have hk : k = .rightBrace := by simpa [inStatements, hc, hs] using h
    exact .inr (by rw [hk])

theorem inside_block {b : NodeKind → Scope → Rule} {a : Rule} (hba : Enters b a) {scope : Scope}
    (hs : scope ≠ .document) (c : Cursor) :
    Yields Derives c (statements b a scope c) (Items scope) ∧
      ((statements b a scope c).cursor.current? = none ∨
        (statements b a scope c).cursor.current? = some .rightBrace) := by
  obtain ⟨hy, hend⟩ := @statements_inside _ _ hba scope (fun h => absurd h hs) c
  refine ⟨?_, statements_end hs hend⟩
  cases scope with
  | document => exact absurd rfl hs
  | shape => exact hy
  | block => exact hy

theorem braced_enters (n : Nat) : Enters (braced n) (array n) := by
  induction n with
  | zero =>
    refine ⟨fun kind scope c _ h => ?_, array_yields 0⟩
    obtain ⟨hy, hsh⟩ := deep_block_yields h
    refine ⟨yields_weaken hy (fun _ => .inr), hsh, ?_⟩
    obtain ⟨t, ts, hc, hk⟩ := current_cons h
    obtain ⟨n, hn, -⟩ := group_open .leftBrace .rightBrace t ts hk
    rw [hc]
    exact ⟨_, rfl, .inr ⟨rfl, n + 1, hn, by
      simp [braced, tooDeep, seq, andThen, report, node, takeCounted, hn, Output.append, skip,
        take]⟩⟩
  | succ n ih =>
    refine ⟨fun kind scope c hk h => ?_, array_yields (n + 1)⟩
    obtain ⟨t, ts, hc, ht⟩ := current_cons h
    obtain ⟨hi, hend⟩ := inside_block ih (scope_inside hk) ⟨ts, c.stop⟩
    obtain ⟨hy, hsh⟩ := block_closes hk ht hi hend
    rw [hc, braced_enclosed]
    exact ⟨yields_weaken hy (fun _ => .inl), hsh, _, rfl, .inl rfl⟩

theorem braced_roomy (n : Nat) : Roomy (braced (n + 1)) := by
  intro c h
  obtain ⟨t, ts, hc, -⟩ := current_cons h
  rw [hc, braced_enclosed]
  exact ⟨_, rfl, rfl⟩

/-- The grammar is never stuck, takes every token, and has a derivation for what it builds. -/
theorem document_derives (ts : List Token) (size : Nat) :
    (document ⟨ts, size⟩).stuck = false ∧
      Outermost size ts (document ⟨ts, size⟩).trees (document ⟨ts, size⟩).diagnostics [] ∧
      Items .document (signature (document ⟨ts, size⟩).trees) := by
  obtain ⟨hy, hend⟩ := @statements_inside _ _ (braced_enters maxNesting) .document
    (fun _ => braced_roomy 255) ⟨ts, size⟩
  have hnil : (document ⟨ts, size⟩).cursor.tokens = [] := by
    simpa [inStatements, Cursor.current?, document] using hend
  have hd : Outermost size ts _ _ (document ⟨ts, size⟩).cursor.tokens := hy.derives
  rw [hnil] at hd
  exact ⟨hy.runs, hd, hy.shape⟩

end DiagramText.Nesting
