import DiagramText.Proofs.Statements

/-!
# Statement lists follow derivations

A list holds what its scope allows. Every round of its loop takes a token, so
the list is read up to the end of the document or, inside a block, up to a
closing brace. In the document itself a closing brace is kept as an error and
a block is reported, since it has no owner.
-/

set_option autoImplicit false

namespace DiagramText.StatementLists
open Rule Lookahead Grammar Measures Braces Production DiagramText.Derivation Reading Statements

def InsideScope : Scope → Relation
  | .document => Outermost
  | .shape | .block => Derives

theorem inside_chains : ∀ scope, Chains (InsideScope scope)
  | .document => outermost_chains
  | .shape | .block => derives_chains

/-- A derivation stands in every scope whose items it has, unless it is a block without owner. -/
theorem inside_yields {scope : Scope} {c : Cursor} {o : Output} {S : List Symbol → Prop}
    (h : Yields Derives c o S)
    (hS : ∀ w, S w → Items scope w ∧ (scope = .document → .node .subShapeDefinition ∉ w)) :
    Yields (InsideScope scope) c o (Items scope) := by
  obtain ⟨hi, ho⟩ := hS _ h.shape
  refine ⟨h.runs, h.stop, ?_, hi⟩
  cases scope with
  | document =>
    refine .piece h.derives hi fun x hx => ?_
    by_contra hk
    exact ho rfl (mem_signature_node _ x _ hx (by simpa [Tree.isKind] using hk))
  | shape => exact h.derives
  | block => exact h.derives

theorem trivia_inside (scope : Scope) (c : Cursor) :
    Yields (InsideScope scope) c (trivia c) (Items scope) :=
  inside_yields (trivia_yields c) (by rintro w rfl; simp [Items])

theorem node_inside {kind : NodeKind} {scope : Scope} {c : Cursor} {o : Output}
    (hk : kind = .shapeConnection ∨ kind = .property ∨ kind = .error)
    (h : Yields Derives c o (· = [.node kind])) : Yields (InsideScope scope) c o (Items scope) := by
  apply inside_yields h
  rintro w rfl
  rcases hk with rfl | rfl | rfl <;> cases scope <;> simp [Items, allowed, NodeKind.isStatement]

theorem recover_inside {scope : Scope} {c : Cursor} {k : TokenKind} (h : c.current? = some k)
    (hf : k ≠ .error) (ht : isTerminator k = false) :
    Yields (InsideScope scope) c (recover c) (Items scope) ∧ Shrinks c (recover c) :=
  (recover_yields h hf ht).imp_left (node_inside (.inr (.inr rfl)))

/-- A block at the top of the document is never beyond the nesting limit. -/
def Roomy (b : NodeKind → Scope → Rule) : Prop :=
  ∀ c, c.current? = some .leftBrace → ∃ x, (b .subShapeDefinition .shape c).trees = [x] ∧
    x.isKind .subShapeDefinition = true

section

variable {b : NodeKind → Scope → Rule} {a : Rule} (hba : Enters b a) {scope : Scope}

include hba

theorem connection_inside {c : Cursor} (h : Starts c) :
    Yields (InsideScope scope) c (connection b c) (Items scope) ∧ Shrinks c (connection b c) :=
  (connection_yields hba h).imp_left (node_inside (.inl rfl))

theorem named_inside {c : Cursor} {k : TokenKind} (h : c.current? = some k)
    (hk : startsSegment k = true) :
    Yields (InsideScope scope) c (named b a scope c) (Items scope) ∧
      Shrinks c (named b a scope c) := by
  unfold named
  simp only
  split
  · next hc => exact connection_inside hba (.inr (.inl ⟨k, h, hk, hc⟩))
  · split
    · exact (property_yields hba h hk).imp_left (node_inside (.inr (.inl rfl)))
    · next hb =>
      obtain ⟨hy, hsh⟩ := shapeDefinition_yields hba h hk
      refine ⟨inside_yields hy ?_, hsh⟩
      rintro w rfl
      cases scope with
      | document => simp [Items, allowed, NodeKind.isStatement]
      | shape => simp [Items, allowed, NodeKind.isStatement]
      | block => exact absurd (.inr rfl) hb

theorem bareBlock_inside (hroom : scope = .document → Roomy b) {c : Cursor}
    (h : c.current? = some .leftBrace) :
    Yields (InsideScope scope) c (bareBlock b scope c) (Items scope) ∧
      Shrinks c (bareBlock b scope c) := by
  obtain ⟨hy, hsh, -⟩ := hba.braced .subShapeDefinition .shape c rfl h
  cases scope with
  | document =>
    obtain ⟨x, hx, hk⟩ := hroom rfl c h
    obtain ⟨t, ts, hc, -⟩ := current_cons h
    refine ⟨⟨by simp [bareBlock, seq, andThen, report, Output.append, hy.runs, skip], hy.stop, ?_,
      ?_⟩, hsh⟩
    · have hd := hy.derives
      rw [hx] at hd
      have ho := Outermost.anonymous (anonymousBlock c) hd hk rfl (by rw [hc]; rfl) rfl
      simpa [InsideScope, bareBlock, seq, andThen, report, Output.append, skip, hx] using ho
    · simp only [bareBlock, seq, andThen, report, Output.append, skip, List.append_nil,
        List.nil_append]
      rcases hy.shape with hw | hw <;> rw [hw] <;> simp [Items, allowed, NodeKind.isStatement]
  | shape =>
    refine ⟨yields_weaken hy ?_, hsh⟩
    rintro w (rfl | rfl) <;> simp [Items, allowed, NodeKind.isStatement]
  | block => exact recover_inside h (by decide) (by decide)

theorem statement_inside (hroom : scope = .document → Roomy b) {c : Cursor} {k : TokenKind}
    (h : c.current? = some k) (ht : isTerminator k = false) :
    Yields (InsideScope scope) c (statement b a scope c) (Items scope) ∧
      Shrinks c (statement b a scope c) := by
  unfold statement
  split
  · next hb =>
    split
    · next hl => exact connection_inside hba (.inr (.inr ⟨hb, hl⟩))
    · exact bareBlock_inside hba hroom hb
    · next hl =>
      obtain ⟨t, ts, hc, hk⟩ := current_cons hb
      obtain ⟨n, hn, -⟩ := group_open .leftBrace .rightBrace t ts hk
      rw [hc] at hl
      simp [blockBeforeConnector?, hn] at hl
  · next hi => exact named_inside hba hi rfl
  · next hs => exact named_inside hba hs rfl
  · next he => exact (discard_yields he).imp_left (node_inside (.inr (.inr rfl)))
  · next k' _ _ _ he hk' =>
    obtain rfl : k = k' := Option.some.inj (h.symm.trans hk')
    split
    · next hc => exact connection_inside hba (.inl ⟨k, h, hc⟩)
    · exact recover_inside h he ht
  · next hn => simp [hn] at h

theorem item_inside (hroom : scope = .document → Roomy b) {c : Cursor}
    (h : inStatements scope c = true) :
    Yields (InsideScope scope) c (item b a scope c) (Items scope) ∧
      Shrinks c (item b a scope c) := by
  obtain ⟨k, hk, hin⟩ := (Option.any_eq_true _ _).mp h
  have token (hb : isBrace k = false) (ht : k.isTrivia = false)
      (ha : allowed scope (.token k) = true) :
      Yields (InsideScope scope) c (bump c) (Items scope) ∧ Shrinks c (bump c) := by
    refine (bump_yields hk hb ht).imp_left fun hy => inside_yields hy ?_
    rintro w rfl
    simpa [Items] using ha
  unfold item
  split
  · next hn =>
    obtain rfl : k = .newline := Option.some.inj (hk.symm.trans hn)
    exact token rfl rfl rfl
  · next hs =>
    obtain rfl : k = .semicolon := Option.some.inj (hk.symm.trans hs)
    exact token rfl rfl rfl
  · next hr =>
    obtain rfl : k = .rightBrace := Option.some.inj (hk.symm.trans hr)
    obtain rfl : scope = .document := by simpa using hin
    obtain ⟨t, ts, hc, hb⟩ := current_cons hk
    rw [hc]
    simp only [strayBrace, seq, andThen, report, node, bump_cons, Output.append, skip]
    exact ⟨⟨rfl, rfl, .stray t ts _ hb rfl rfl rfl, by simp [Items, allowed, NodeKind.isStatement]⟩,
      by simp [Shrinks]⟩
  · next hn hs hr =>
    have ht : isTerminator k = false := by
      simp only [hk, Option.some.injEq] at hn hs hr
      simp only [isTerminator, Bool.or_eq_false_iff, beq_eq_false_iff_ne]
      exact ⟨⟨hn, hs⟩, hr⟩
    obtain ⟨hy, hsh⟩ := statement_inside hba hroom hk ht
    have hterm (c' : Cursor) :
        Yields (InsideScope scope) c' (seq [terminated] c') (Items scope) := by
      refine seq_last (inside_chains scope) _ (inside_yields (terminated_yields c') ?_)
      rintro w (rfl | rfl) <;> cases scope <;> simp [Items, allowed, NodeKind.isStatement]
    exact ⟨seq_yields (inside_chains scope) _ _ hy (hterm _) (items_append scope),
      seq_shrinks (inside_chains scope) _ _ hsh (hterm _)⟩

theorem statements_inside (hroom : scope = .document → Roomy b) (c : Cursor) :
    Yields (InsideScope scope) c (statements b a scope c) (Items scope) ∧
      inStatements scope (statements b a scope c).cursor = false := by
  have hD := inside_chains scope
  obtain ⟨hy, -, hend⟩ := many_yields (I := fun _ => True) hD (inStatements scope)
    (seq [item b a scope, trivia]) (S := Items scope) (by simp [Items]) (items_append scope)
    (fun c _ h => by
      obtain ⟨hy, hsh⟩ := item_inside hba hroom h
      have ht := seq_last hD _ (trivia_inside scope (item b a scope c).cursor)
      exact ⟨seq_yields hD _ _ hy ht (items_append scope), seq_shrinks hD _ _ hsh ht, trivial⟩)
    (trivia c).cursor trivial
  exact ⟨seq_yields hD _ _ (trivia_inside scope c) (seq_last hD _ hy) (items_append scope), hend⟩

end

end DiagramText.StatementLists
