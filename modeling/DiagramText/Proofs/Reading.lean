import DiagramText.Proofs.Derivation

/-!
# The grammar follows derivations

Each rule of the grammar is read once: from every cursor at which the grammar
uses it, the rule is not stuck, it has a derivation, and the trees it builds
have the signature of its production. This passes along sequences and loops.
The rules at the bottom take tokens: leaves take a measure that is positive
there, and error nodes take what a counter measures, which never falls below
zero because a group is entered at its opening token.
-/

set_option autoImplicit false

namespace DiagramText.Reading
open Rule Lookahead Grammar Measures Braces Production DiagramText.Derivation

abbrev Relation := Nat → List Token → List Tree → List Diagnostic → List Token → Prop

/-- At the cursor the output has a derivation, is not stuck, and has a signature in `S`. -/
structure Yields (D : Relation) (c : Cursor) (o : Output) (S : List Symbol → Prop) : Prop where
  runs : o.stuck = false
  stop : o.cursor.stop = c.stop
  derives : D c.stop c.tokens o.trees o.diagnostics o.cursor.tokens
  shape : S (signature o.trees)

def Shrinks (c : Cursor) (o : Output) : Prop := o.cursor.tokens.length < c.tokens.length

/-- A relation that passes along a sequence of rules. -/
structure Chains (D : Relation) : Prop where
  nil : ∀ size ts, D size ts [] [] ts
  append : ∀ {size ts us vs xs ys ds es}, D size ts xs ds us → D size us ys es vs →
    D size ts (xs ++ ys) (ds ++ es) vs
  tokens : ∀ {size ts us xs ds}, D size ts xs ds us → ts = Tree.tokensAll xs ++ us

theorem derives_chains : Chains Derives := ⟨fun _ ts => .nil ts, .append, derives_tokens⟩

theorem outermost_chains : Chains Outermost where
  nil _ ts := .piece (.nil ts) (by simp [Items, signature]) (by simp)
  append := .append
  tokens := outermost_tokens

section

variable {D : Relation} {c : Cursor} {a b o : Output} {R S T : List Symbol → Prop}

theorem yields_weaken (h : Yields D c o S) (hST : ∀ w, S w → T w) : Yields D c o T :=
  ⟨h.runs, h.stop, h.derives, hST _ h.shape⟩

theorem yields_append (hD : Chains D) (ha : Yields D c a S) (hb : Yields D a.cursor b T)
    (h : ∀ u v, S u → T v → R (u ++ v)) : Yields D c (a.append b) R where
  runs := by simp [Output.append, ha.runs, hb.runs]
  stop := hb.stop.trans ha.stop
  derives := hD.append ha.derives (ha.stop ▸ hb.derives)
  shape := by
    rw [Output.append, signature_append]
    exact h _ _ ha.shape hb.shape

theorem yields_length (hD : Chains D) (h : Yields D c o S) :
    o.cursor.tokens.length ≤ c.tokens.length := by
  have ht := congrArg List.length (hD.tokens h.derives)
  simp only [List.length_append] at ht
  omega

theorem skip_yields (hD : Chains D) (c : Cursor) : Yields D c (skip c) (· = []) :=
  ⟨rfl, rfl, hD.nil _ _, rfl⟩

theorem shrinks_append_left (hD : Chains D) (ha : Shrinks c a) (hb : Yields D a.cursor b S) :
    Shrinks c (a.append b) :=
  (yields_length hD hb).trans_lt ha

theorem shrinks_append_right (hD : Chains D) (ha : Yields D c a S) (hb : Shrinks a.cursor b) :
    Shrinks c (a.append b) :=
  lt_of_lt_of_le hb (yields_length hD ha)

theorem seq_yields (hD : Chains D) (p : Rule) (ps : List Rule) (hp : Yields D c (p c) S)
    (hps : Yields D (p c).cursor (seq ps (p c).cursor) T)
    (h : ∀ u v, S u → T v → R (u ++ v)) : Yields D c (seq (p :: ps) c) R :=
  yields_append hD hp hps h

theorem seq_shrinks (hD : Chains D) (p : Rule) (ps : List Rule) (hp : Shrinks c (p c))
    (hps : Yields D (p c).cursor (seq ps (p c).cursor) T) : Shrinks c (seq (p :: ps) c) :=
  shrinks_append_left hD hp hps

theorem seq_last (hD : Chains D) (p : Rule) (hp : Yields D c (p c) S) :
    Yields D c (seq [p] c) S :=
  yields_append hD hp (skip_yields hD _) (by rintro u v hu rfl; simpa using hu)

/-- A loop whose rounds keep an invariant and take tokens ends where its test fails. -/
theorem many_yields (hD : Chains D) (test : Cursor → Bool) (p : Rule) {I : Cursor → Prop}
    (nil : S []) (join : ∀ u v, S u → S v → S (u ++ v))
    (round : ∀ c, I c → test c = true →
      Yields D c (p c) S ∧ Shrinks c (p c) ∧ I (p c).cursor) (c : Cursor) (hc : I c) :
    Yields D c (many test p c) S ∧ I (many test p c).cursor ∧
      test (many test p c).cursor = false := by
  fun_induction many test p c with
  | case1 c ht a hlt ih =>
    obtain ⟨hy, -, hi⟩ := round c hc ht
    obtain ⟨hy', hi', hf⟩ := ih hi
    exact ⟨yields_append hD hy hy' join, hi', hf⟩
  | case2 c ht a hlt =>
    obtain ⟨-, hs, -⟩ := round c hc ht
    exact absurd hs hlt
  | case3 c ht =>
    refine ⟨yields_weaken (skip_yields hD c) ?_, hc, by simpa [skip] using ht⟩
    rintro w rfl
    exact nil

end

theorem current_cons {c : Cursor} {k : TokenKind} (h : c.current? = some k) :
    ∃ t ts, c = ⟨t :: ts, c.stop⟩ ∧ t.kind = k := by
  obtain ⟨tokens, stop⟩ := c
  cases tokens with
  | nil => simp [Cursor.current?] at h
  | cons t ts => exact ⟨t, ts, rfl, by simpa [Cursor.current?] using h⟩

theorem bump_cons (t : Token) (ts : List Token) (stop : Nat) :
    bump ⟨t :: ts, stop⟩ = ⟨[.token t], [], ⟨ts, stop⟩, false⟩ := by
  simp [bump, take, Cursor.drop]

theorem tokens_derive (size : Nat) (us ts : List Token)
    (plain : ∀ t ∈ us, isBrace t.kind = false) :
    Derives size (us ++ ts) (us.map .token) [] ts := by
  induction us with
  | nil => exact .nil ts
  | cons t us ih =>
    exact .append (.token t (us ++ ts) (plain t (by simp))) (ih fun u hu => plain u (by simp [hu]))

theorem trivia_yields (c : Cursor) : Yields Derives c (trivia c) (· = []) where
  runs := by simpa [trivia, take] using trivia_le c.tokens
  stop := rfl
  derives := by
    have hd := tokens_derive c.stop (c.tokens.take (triviaLength c.tokens))
      (c.tokens.drop (triviaLength c.tokens)) (by
        intro t ht
        have hv := trivia_tokens c.tokens t ht
        cases hk : t.kind <;> simp_all [Token.isTrivia, TokenKind.isTrivia, isBrace])
    rwa [List.take_append_drop] at hd
  shape := by
    simp only [trivia, take, signature, List.filterMap_map, List.filterMap_eq_nil_iff]
    intro t ht
    simp [symbol?, trivia_tokens c.tokens t ht]

theorem bump_yields {c : Cursor} {k : TokenKind} (h : c.current? = some k)
    (hb : isBrace k = false) (hk : k.isTrivia = false) :
    Yields Derives c (bump c) (· = [.token k]) ∧ Shrinks c (bump c) := by
  obtain ⟨t, ts, hc, rfl⟩ := current_cons h
  rw [hc, bump_cons]
  refine ⟨⟨rfl, rfl, .token t ts hb, ?_⟩, by simp [Shrinks]⟩
  simp [signature, symbol?, Token.isTrivia, hk]

theorem take_split {ts : List Token} {n : Nat} (hpos : 0 < n) (hle : n ≤ ts.length) :
    ∃ t us, ts.take n = t :: us ∧ ts = t :: us ++ ts.drop n := by
  obtain ⟨t, us, h⟩ := List.exists_cons_of_length_pos
    (show 0 < (ts.take n).length by rw [List.length_take]; omega)
  exact ⟨t, us, h, by rw [← h, List.take_append_drop]⟩

theorem offset_cons {c : Cursor} {t : Token} {us ts : List Token} (h : c.tokens = t :: us ++ ts) :
    c.offset = t.start := by
  simp [Cursor.offset, h]

theorem leaf_yields {kind : NodeKind} {length : List Token → Nat} {c : Cursor}
    (hpos : 0 < length c.tokens) (hle : length c.tokens ≤ c.tokens.length)
    (hl : Leaf kind (c.tokens.take (length c.tokens)))
    (htrim : Trimmed kind (c.tokens.take (length c.tokens)) (c.tokens.drop (length c.tokens))) :
    Yields Derives c (node kind (take length) c) (· = [.node kind]) ∧
      Shrinks c (node kind (take length) c) := by
  obtain ⟨t, us, ht, hs⟩ := take_split hpos hle
  refine ⟨⟨by simpa [node, take] using hle, rfl, ?_, rfl⟩, ?_⟩
  · have hd := @Derives.leaf c.stop kind t us (c.tokens.drop (length c.tokens)) (ht ▸ hl)
      (ht ▸ htrim)
    rw [← hs] at hd
    simpa [node, take, ht, offset_cons hs, Cursor.drop] using hd
  · simp only [Shrinks, node, take, Cursor.drop, List.length_drop]
    omega

/-- The last token of a run is neither a blank, which the run leaves out, nor a comment, if
comments stop it. -/
theorem run_shut {stops : Token → Bool} {ts : List Token}
    (hstops : ∀ t, t.isTrivia = true → stops t = false → t.kind = .whitespace)
    (hpos : 0 < runLength stops ts) :
    Shut (ts.take (runLength stops ts)) (ts.drop (runLength stops ts)) := by
  cases hlast : (ts.take (runLength stops ts)).getLast? with
  | none =>
    rw [List.getLast?_eq_none_iff] at hlast
    have hlength := congrArg List.length hlast
    have hle := run_le stops ts
    simp only [List.length_take, List.length_nil] at hlength
    omega
  | some t =>
    have hplain := run_tokens stops ts t (List.mem_of_getLast? hlast)
    have hblank := run_last stops ts t hlast
    refine .inl ⟨t, hlast, ?_⟩
    cases ht : t.isTrivia with
    | false => rfl
    | true => exact absurd (hstops t ht hplain) hblank

theorem counted_node {length? : List Token → Option Nat} {c : Cursor} {n : Nat}
    (hn : length? c.tokens = some n) (hpos : 0 < n) (hle : n ≤ c.tokens.length) :
    ∃ t us, c.tokens = t :: us ++ c.tokens.drop n ∧ c.tokens.take n = t :: us ∧
      node .error (takeCounted length?) c =
        ⟨[.node .error t.start ((t :: us).map .token)], [], c.drop n, false⟩ ∧
      Shrinks c (node .error (takeCounted length?) c) := by
  obtain ⟨t, us, ht, hs⟩ := take_split hpos hle
  have ho : node .error (takeCounted length?) c =
      ⟨[.node .error t.start ((t :: us).map .token)], [], c.drop n, false⟩ := by
    simp [node, takeCounted, hn, take, ht, offset_cons hs, hle]
  refine ⟨t, us, hs, ht, ho, ?_⟩
  simp only [ho, Shrinks, Cursor.drop, List.length_drop]
  omega

theorem current_head {c : Cursor} {k : TokenKind} {t : Token} {us ts : List Token}
    (h : c.current? = some k) (hs : c.tokens = t :: us ++ ts) : t.kind = k := by
  simpa [Cursor.current?, hs] using h

theorem span_head {c : Cursor} {t : Token} {us ts : List Token} (hs : c.tokens = t :: us ++ ts) :
    c.span = t.span := by
  simp [Cursor.span, hs]

/-- A reported error node, whatever the counter that measures it. -/
theorem rejected_yields {length? : List Token → Option Nat} {c : Cursor} {n : Nat}
    {k : TokenKind} {d : Cursor → Diagnostic} (hk : c.current? = some k) (hf : k ≠ .error)
    (hcode : (d c).code = some .unexpectedToken ∨ (d c).code = some .nestingTooDeep)
    (hspan : (d c).span? = some c.span) (hone : (d c).labels.length = 1)
    (hn : length? c.tokens = some n) (hpos : 0 < n) (hle : n ≤ c.tokens.length)
    (hlev : Level (c.tokens.take n) (c.tokens.drop n)) :
    Yields Derives c (seq [report d, node .error (takeCounted length?)] c)
        (· = [.node .error]) ∧
      Shrinks c (seq [report d, node .error (takeCounted length?)] c) := by
  obtain ⟨t, us, hs, ht, ho, hsh⟩ := counted_node hn hpos hle
  have hd := @Derives.rejected c.stop t us (c.tokens.drop n) (d c)
    (by rw [current_head hk hs]; exact hf) hcode (by rw [hspan, span_head hs]) (ht ▸ hlev) hone
  rw [← hs] at hd
  rw [ho] at hsh
  simp only [seq, andThen, report, Output.append, ho, skip, List.append_nil, List.nil_append]
  exact ⟨⟨rfl, rfl, hd, rfl⟩, hsh⟩

theorem discard_yields {c : Cursor} (h : c.current? = some .error) :
    Yields Derives c (discard c) (· = [.node .error]) ∧ Shrinks c (discard c) := by
  obtain ⟨n, d, hn, hle, hd, he⟩ := statement_measure 0 c.tokens
  have hpos : 0 < n := by
    obtain ⟨t, ts, hc, hk⟩ := current_cons h
    rw [hc] at hn
    exact statement_pos t ts n (by simp [hk, isTerminator]) hn
  obtain ⟨t, us, hs, ht, ho, hsh⟩ := counted_node hn hpos hle
  have hder := @Derives.silent c.stop t us (c.tokens.drop n) (current_head h hs)
    (ht ▸ ⟨d, hd, he⟩)
  rw [← hs] at hder
  refine ⟨?_, hsh⟩
  simp only [Grammar.discard, ho]
  exact ⟨rfl, rfl, hder, rfl⟩

theorem recover_yields {c : Cursor} {k : TokenKind} (h : c.current? = some k) (hf : k ≠ .error)
    (ht : isTerminator k = false) :
    Yields Derives c (recover c) (· = [.node .error]) ∧ Shrinks c (recover c) := by
  obtain ⟨n, d, hn, hle, hd, he⟩ := statement_measure 0 c.tokens
  have hpos : 0 < n := by
    obtain ⟨t, ts, hc, hk⟩ := current_cons h
    rw [hc] at hn
    exact statement_pos t ts n (by rwa [hk]) hn
  exact rejected_yields h hf (.inl rfl) rfl rfl hn hpos hle ⟨d, hd, he⟩

theorem deep_block_yields {c : Cursor} (h : c.current? = some .leftBrace) :
    Yields Derives c (tooDeep .leftBrace .rightBrace c) (· = [.node .error]) ∧
      Shrinks c (tooDeep .leftBrace .rightBrace c) := by
  obtain ⟨t, ts, hc, hk⟩ := current_cons h
  obtain ⟨n, hn, hle⟩ := group_open .leftBrace .rightBrace t ts hk
  have hct : c.tokens = t :: ts := by rw [hc]
  rw [← hct] at hn
  exact rejected_yields h (by decide) (.inr rfl) rfl rfl hn (Nat.succ_pos n)
    (by rw [hct]; exact Nat.succ_le_succ hle) (group_level 0 _ _ hn)

theorem group_shut {us ts : List Token}
    (h : (∃ t ∈ us.getLast?, t.kind = .rightBracket) ∨ ts = []) : Shut us ts := by
  rcases h with ⟨t, ht, hk⟩ | rfl
  · exact .inl ⟨t, ht, by rw [Token.isTrivia, hk]; rfl⟩
  · exact .inr (by simp)

theorem deep_value_yields {c : Cursor} (h : c.current? = some .leftBracket) :
    Yields Derives c (node .attributeValue (tooDeep .leftBracket .rightBracket) c)
        (· = [.node .attributeValue]) ∧
      Shrinks c (node .attributeValue (tooDeep .leftBracket .rightBracket) c) := by
  obtain ⟨t, ts, hc, hk⟩ := current_cons h
  obtain ⟨n, hn, hle⟩ := group_open .leftBracket .rightBracket t ts hk
  have hct : c.tokens = t :: ts := by rw [hc]
  rw [← hct] at hn
  have hends := group_ends hn
  obtain ⟨t', us, hs, htake, ho, hsh⟩ := counted_node hn (Nat.succ_pos n)
    (by rw [hct]; exact Nat.succ_le_succ hle)
  let d : Diagnostic :=
    .record .nestingTooDeep ("nesting deeper than " ++ maxNesting.repr ++ " levels") c.span
  have hto : tooDeep .leftBracket .rightBracket c =
      ⟨[.node .error t'.start ((t' :: us).map .token)], [d], c.drop (n + 1), false⟩ := by
    simp only [tooDeep, seq, andThen, report, Output.append, ho, skip]
    rfl
  have hder := @Derives.deepValue c.stop t' us (c.tokens.drop (n + 1)) d (current_head h hs) rfl
    (by rw [← span_head hs]; rfl) rfl (group_shut (htake ▸ hends))
  rw [← hs] at hder
  rw [ho] at hsh
  have hout : node .attributeValue (tooDeep .leftBracket .rightBracket) c =
      ⟨[.node .attributeValue t'.start [.node .error t'.start ((t' :: us).map .token)]], [d],
        c.drop (n + 1), false⟩ := by
    rw [node, hto, offset_cons hs]
  rw [hout]
  exact ⟨⟨rfl, rfl, hder, rfl⟩, hsh⟩

theorem missing_yields (message : String) (c : Cursor) :
    Yields Derives c (missingEndpoint message c) (· = [.node .error]) :=
  ⟨rfl, rfl, .missing c.tokens _ rfl rfl rfl, rfl⟩

theorem fault_yields {c : Cursor} (h : c.current? = some .error) :
    Yields Derives c (node .error bump c) (· = [.node .error]) := by
  obtain ⟨t, ts, hc, hk⟩ := current_cons h
  rw [hc, node, bump_cons]
  exact ⟨rfl, rfl, .silent t [] ts hk (level_plain _ _ (by simp [isBrace, hk])), rfl⟩

end DiagramText.Reading
