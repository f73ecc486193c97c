import DiagramText.Proofs.Joint

/-!
# Clean statements before a newline

Rule by rule, what the grammar reads without a report in front of a newline it
reads in the same way when the document goes on behind it. Blocks and arrays
are closed there, so their loops end at a token and not at the end of the
document. A block that stands first in a statement is counted by lookahead; its
braces balance, because no array in it holds an opening one.
-/

set_option autoImplicit false

namespace DiagramText.Continuation
open Rule Lookahead Grammar Measures Braces Balance Reading Nesting Joint
open DiagramText.Tree (nodesAll tokensAll tokensAll_append tokensAll_map_token forall_nodes_append
  forall_nodes_node)

/-- A block from its opening brace to the brace that closes it. -/
def BraceGroup (us : List Token) : Prop :=
  ∃ t inner u, us = t :: (inner ++ [u]) ∧ t.kind = .leftBrace ∧ u.kind = .rightBrace ∧
    Balanced inner

theorem group_balanced {us : List Token} (h : BraceGroup us) : Balanced us := by
  obtain ⟨t, inner, u, rfl, ht, hu, hinner⟩ := h
  obtain ⟨d, hd, hz⟩ := @level_enclosed t u inner [t] ht hu hinner
  rwa [hz (by simp)] at hd

section

variable {v : Tail} {c : Cursor}

theorem trivia_balanced (c : Cursor) : Passes v Balanced trivia c :=
  trivia_passes (fun _ => braceless_balanced) c

theorem plain_bump {k : TokenKind} (h : c.current? = some k) (hk : isBrace k = false) :
    Passes v Balanced bump c :=
  bump_passes h fun t ht => braceless_balanced (by simpa [Braceless, ht] using hk)

theorem text_passes (kind : NodeKind) (c : Cursor) :
    Passes v Balanced (whenNext startsText (seq [trivia, node kind (take textLength)])) c := by
  refine whenNext_passes balanced_joins rfl fun k _ _ => ?_
  refine seq_passes balanced_joins (trivia_balanced c)
    (seq_one balanced_joins (node_passes kind ?_))
  exact take_passes (v.text_length _) (run_le _ _) (braceless_balanced (text_tokens _))

theorem colon_passes {p : Rule} (hp : ∀ c, Passes v Balanced p c) (c : Cursor) :
    Passes v Balanced (whenNext (· == .colon) (seq [trivia, bump, p])) c := by
  refine whenNext_passes balanced_joins rfl fun k hk ht => ?_
  obtain rfl : k = .colon := by simpa using ht
  have hcur : (trivia c).cursor.current? = some .colon := (trivia_current c).trans hk
  exact seq_passes balanced_joins (trivia_balanced c)
    (seq_passes balanced_joins (plain_bump hcur rfl) (seq_one balanced_joins (hp _)))

theorem label_passes (c : Cursor) : Passes v Balanced label c := colon_passes (text_passes _) c

theorem path_passes (kind : NodeKind) (c : Cursor) :
    Passes v Balanced (node kind (take pathLength)) c :=
  node_passes kind (take_passes (congrArg Path.length (v.path_same _)) (path_bound _).1
    (braceless_balanced (path_bound _).2))

/-- What the rules one level down do in front of the newline. -/
structure Passable (v : Tail) (b : NodeKind → Scope → Rule) (a : Rule) : Prop where
  braced : ∀ kind scope c, scope ≠ .document → c.current? = some .leftBrace →
    Passes v BraceGroup (b kind scope) c
  array : ∀ c, c.current? = some .leftBracket → Passes v Braceless a c

section

variable {b : NodeKind → Scope → Rule} {a : Rule} (hba : Passable v b a)

include hba

theorem value_passes (c : Cursor) : Passes v Balanced (value a) c := by
  refine colon_passes (fun c => ?_) c
  by_cases h : c.peek? = some .leftBracket
  · have hcur : (trivia c).cursor.current? = some .leftBracket := (trivia_current c).trans h
    have harray := passes_weaken (hba.array _ hcur) fun _ => braceless_balanced
    refine passes_as (if_pos h) (if_pos (v.peek_some h)) ?_
    exact seq_passes balanced_joins (trivia_balanced c)
      (seq_one balanced_joins (node_passes _ harray))
  · have hv : (v.extend c).peek? ≠ some .leftBracket := by
      rw [v.peek_extend]
      cases hp : c.peek? with
      | none => simp
      | some k => simpa [hp] using h
    exact passes_as (if_neg h) (if_neg hv) (text_passes _ c)

theorem block_passes {kind : NodeKind} {scope : Scope} (hs : scope ≠ .document)
    (h : c.current? = some .leftBrace) : Passes v Balanced (b kind scope) c :=
  passes_weaken (hba.braced kind scope c hs h) fun _ => group_balanced

theorem body_passes (kind : NodeKind) {scope : Scope} (hs : scope ≠ .document) (c : Cursor) :
    Passes v Balanced (body (b kind scope)) c := by
  refine whenNext_passes balanced_joins rfl fun k hk ht => ?_
  obtain rfl : k = .leftBrace := by simpa using ht
  exact seq_passes balanced_joins (trivia_balanced c)
    (seq_one balanced_joins (block_passes hba hs ((trivia_current c).trans hk)))

theorem shapeDefinition_passes (c : Cursor) : Passes v Balanced (shapeDefinition b) c :=
  node_passes _ (seq_passes balanced_joins (path_passes _ c)
    (seq_passes balanced_joins (label_passes _)
      (seq_one balanced_joins (body_passes hba _ (by simp) _))))

theorem property_passes (c : Cursor) : Passes v Balanced (property b a) c :=
  node_passes _ (seq_passes balanced_joins (path_passes _ c)
    (seq_passes balanced_joins (value_passes hba _)
      (seq_one balanced_joins (body_passes hba _ (by simp) _))))

theorem endpoint_passes (c : Cursor) : Passes v Balanced (endpoint b) c := by
  by_cases h : c.current? = some .leftBrace
  · exact passes_as (if_pos h) (if_pos (v.current_some h)) (block_passes hba (by simp) h)
  · have hv : (v.extend c).current? ≠ some .leftBrace := by
      rw [v.current_extend]
      cases hc : c.current? with
      | none => simp
      | some k => simpa [hc] using h
    exact passes_as (if_neg h) (if_neg hv) (path_passes _ c)

theorem source_passes (c : Cursor) : Passes v Balanced (source b) c := by
  cases hc : c.current? with
  | none =>
    refine passes_as (q := endpoint b) (by simp only [source, hc]) ?_ (endpoint_passes hba c)
    have hv : (v.extend c).current? = some .newline := by rw [v.current_extend, hc]; rfl
    simp [source, hv, TokenKind.isConnector, TokenKind.connector?]
  | some k =>
    by_cases hk : k.isConnector = true
    · refine passes_reported ?_
      simp only [source, hc, if_pos hk]
      exact report_speaks _ _ c
    · refine passes_as (q := endpoint b) ?_ ?_ (endpoint_passes hba c)
      · simp only [source, hc, if_neg hk]
      · simp only [source, v.current_some hc, if_neg hk]

theorem target_passes (k : TokenKind) (c : Cursor) : Passes v Balanced (target b k) c := by
  have at_start {k' : TokenKind} (hc : c.current? = some k')
      (hk : k' = .identifier ∨ k' = .string ∨ k' = .leftBrace) :
      Passes v Balanced (target b k) c := by
    refine passes_as (q := endpoint b) ?_ ?_ (endpoint_passes hba c)
    · rcases hk with rfl | rfl | rfl <;> simp only [target, hc]
    · have hv := v.current_some hc
      rcases hk with rfl | rfl | rfl <;> simp only [target, hv]
  have reported (h : target b k c = missingEndpoint ("expected a shape after " ++ k.describe) c) :
      Passes v Balanced (target b k) c := by
    refine passes_reported ?_
    rw [h]
    exact report_speaks _ _ c
  cases hc : c.current? with
  | none => exact reported (by simp only [target, hc])
  | some k' =>
    cases k' with
    | identifier => exact at_start hc (.inl rfl)
    | string => exact at_start hc (.inr (.inl rfl))
    | leftBrace => exact at_start hc (.inr (.inr rfl))
    | error => exact fun hm _ => absurd hc hm.current
    | _ => exact reported (by simp only [target, hc])

theorem link_passes {k : TokenKind} (hp : c.peek? = some k) (hk : k.isConnector = true) :
    Passes v Balanced (link b) c := by
  have hcur : (trivia c).cursor.current? = some k := (trivia_current c).trans hp
  refine passes_as (q := seq [trivia, bump, trivia, target b k]) ?_ ?_ ?_
  · simp only [link, hp]
  · simp only [link, v.peek_some hp]
  · exact seq_passes balanced_joins (trivia_balanced c) (seq_passes balanced_joins
      (plain_bump hcur (Statements.connector_plain hk).1) (seq_passes balanced_joins
        (trivia_balanced _) (seq_one balanced_joins (target_passes hba k _))))

theorem connection_passes (c : Cursor) : Passes v Balanced (connection b) c := by
  refine node_passes _ (seq_passes balanced_joins (source_passes hba c) ?_)
  refine seq_passes balanced_joins (many_passes balanced_joins (v.peek_any rfl) ?_) ?_
  · intro c h
    obtain ⟨k, hp, hk⟩ := (Option.any_eq_true _ _).mp h
    exact link_passes hba hp hk
  · exact seq_passes balanced_joins (label_passes _)
      (seq_one balanced_joins (body_passes hba _ (by simp) _))

theorem named_passes (scope : Scope) (c : Cursor) : Passes v Balanced (named b a scope) c := by
  have hpath : path (v.extend c).tokens = path c.tokens := v.path_same _
  have hahead : ((v.extend c).drop (path c.tokens).length).peek?.any (·.isConnector) =
      (c.drop (path c.tokens).length).peek?.any (·.isConnector) := by
    have hle : (path c.tokens).length ≤ c.tokens.length := (path_bound c.tokens).1
    rw [v.drop_extend hle, v.peek_any rfl]
  by_cases hc : (c.drop (path c.tokens).length).peek?.any (·.isConnector) = true
  · refine passes_as (q := connection b) ?_ ?_ (connection_passes hba c)
    · simp only [named, if_pos hc]
    · simp only [named, hpath, hahead, if_pos hc]
  by_cases hk : (path c.tokens).hasKeyword = true ∨ scope = .block
  · refine passes_as (q := property b a) ?_ ?_ (property_passes hba c)
    · simp only [named, if_neg hc, if_pos hk]
    · simp only [named, hpath, hahead, if_neg hc, if_pos hk]
  · refine passes_as (q := shapeDefinition b) ?_ ?_ (shapeDefinition_passes hba c)
    · simp only [named, if_neg hc, if_neg hk]
    · simp only [named, hpath, hahead, if_neg hc, if_neg hk]

omit hba in
/-- Lookahead counts a block that is closed in front of the newline to the same brace. -/
theorem block_before {us : List Token} (hg : BraceGroup us) {rest : List Token}
    (h : c.tokens = us ++ rest) :
    blockBeforeConnector? (v.extend c) = blockBeforeConnector? c := by
  obtain ⟨t, inner, u, rfl, ht, hu, hinner⟩ := hg
  have counted (ws : List Token) :
      groupLength? .leftBrace .rightBrace 0 (t :: (inner ++ [u]) ++ ws) =
        some (inner.length + 2) := by
    have hclose := group_closes ws hu hinner
    simp [groupLength?, ht, hclose]
  have hlen : inner.length + 2 ≤ c.tokens.length := by
    simp only [h, List.length_append, List.length_cons, List.length_nil]
    omega
  have hv : (v.extend c).tokens = t :: (inner ++ [u]) ++ (rest ++ v.tokens) := by
    simp [Tail.extend, h]
  simp only [blockBeforeConnector?, hv, h, counted, Option.map_some]
  rw [v.drop_extend hlen, v.peek_any rfl]

theorem bareBlock_passes (scope : Scope) (h : c.current? = some .leftBrace) :
    Passes v Balanced (bareBlock b scope) c := by
  cases scope with
  | document => exact passes_reported (report_speaks _ _ c)
  | shape => exact block_passes hba (by simp) h
  | block => exact passes_reported (report_speaks _ _ c)

theorem statement_group {scope : Scope} (h : c.current? = some .leftBrace) (hm : v.Meets c)
    (hclean : Faultless (statement b a scope c)) :
    blockBeforeConnector? (v.extend c) = blockBeforeConnector? c := by
  have grouped {kind : NodeKind} (hb : Faultless (b kind .shape c)) :
      blockBeforeConnector? (v.extend c) = blockBeforeConnector? c := by
    have hcarries := hba.braced kind .shape c (by simp) h hm hb
    exact block_before hcarries.piece hcarries.tokens
  cases hl : blockBeforeConnector? c with
  | none =>
    have hs : statement b a scope c = halt c := by simp only [statement, h, hl]
    exact absurd (hs ▸ hclean).runs (by simp [halt])
  | some ahead =>
    rw [← hl]
    cases ahead with
    | true =>
      have hs : statement b a scope c = connection b c := by simp only [statement, h, hl]
      have hsource : source b c = b .inlineShapeDefinition .shape c := by
        simp [source, h, endpoint, TokenKind.isConnector, TokenKind.connector?]
      have hfirst := (faultless_append (faultless_node (hs ▸ hclean))).1
      exact grouped (hsource ▸ hfirst)
    | false =>
      have hs : statement b a scope c = bareBlock b scope c := by simp only [statement, h, hl]
      rw [hs] at hclean
      cases scope with
      | document => exact absurd hclean.silent (report_speaks _ _ c)
      | shape => exact grouped hclean
      | block => exact absurd hclean.silent (report_speaks _ _ c)

theorem statement_passes (scope : Scope) {k : TokenKind} (h : c.current? = some k) :
    Passes v Balanced (statement b a scope) c := by
  intro hm hclean
  have hv := v.current_some h
  -- every branch does in front of the newline what it does here
  have as {q : Rule} (hc : statement b a scope c = q c)
      (hx : statement b a scope (v.extend c) = q (v.extend c)) (hq : Passes v Balanced q c) :
      Carries v Balanced (statement b a scope) c := passes_as hc hx hq hm hclean
  cases k with
  | leftBrace =>
    have hgroup := statement_group hba h hm hclean
    cases hl : blockBeforeConnector? c with
    | none =>
      have hs : statement b a scope c = halt c := by simp only [statement, h, hl]
      exact absurd (hs ▸ hclean).runs (by simp [halt])
    | some ahead =>
      cases ahead with
      | true =>
        exact as (by simp only [statement, h, hl]) (by simp only [statement, hv, hgroup, hl])
          (connection_passes hba c)
      | false =>
        exact as (by simp only [statement, h, hl]) (by simp only [statement, hv, hgroup, hl])
          (bareBlock_passes hba scope h)
  | identifier | string =>
    exact as (by simp only [statement, h]) (by simp only [statement, hv]) (named_passes hba scope c)
  | error => exact absurd h hm.current
  | arrow | leftArrow | doubleArrow | line =>
    exact as (by simp [statement, h, TokenKind.isConnector, TokenKind.connector?])
      (by simp [statement, hv, TokenKind.isConnector, TokenKind.connector?])
      (connection_passes hba c)
  | _ =>
    refine absurd hclean.silent ?_
    simp only [statement, h]
    exact report_speaks _ _ c

omit hba in
theorem terminated_passes (c : Cursor) : Passes v Balanced terminated c := by
  cases hp : c.peek? with
  | none =>
    refine passes_as (q := skip) (by simp only [terminated, hp]) ?_ (skip_passes balanced_joins)
    have hv : (v.extend c).peek? = some .newline := by rw [v.peek_extend, hp]; rfl
    simp [terminated, hv, isTerminator]
  | some k =>
    by_cases ht : isTerminator k = true
    · refine passes_as (q := skip) ?_ ?_ (skip_passes balanced_joins)
      · simp only [terminated, hp, if_pos ht]
      · simp only [terminated, v.peek_some hp, if_pos ht]
    by_cases he : k = .error
    · intro hm _
      obtain ⟨t, ht, hk⟩ := Option.map_eq_some_iff.mp hp
      exact absurd (hk.trans he) (hm.readable t (List.mem_of_find?_eq_some ht))
    · refine passes_reported ?_
      simp only [terminated, hp, if_neg ht, if_neg he]
      simp [recover, seq, andThen, report, Output.append]

theorem item_passes {scope : Scope} {k : TokenKind} (h : c.current? = some k) :
    Passes v Balanced (item b a scope) c := by
  have hv := v.current_some h
  have hrest := seq_passes balanced_joins (statement_passes hba scope h)
    (seq_one balanced_joins (terminated_passes _))
  cases k with
  | newline | semicolon =>
    exact passes_as (by simp only [item, h]) (by simp only [item, hv]) (plain_bump h rfl)
  | rightBrace =>
    refine passes_reported ?_
    simp only [item, h]
    exact report_speaks _ _ c
  | _ => exact passes_as (by simp only [item, h]) (by simp only [item, hv]) hrest

theorem statements_resume {scope : Scope} (hm : v.Meets c)
    (hclean : Faultless (statements b a scope c)) :
    Resumes v Balanced (statements b a scope)
      (many (inStatements scope) (seq [item b a scope, trivia])) c := by
  refine list_resumes balanced_joins (fun _ => braceless_balanced) ?_ ?_ c hm hclean
  · exact fun _ => v.current_any
  · intro c h
    obtain ⟨k, hk, -⟩ := (Option.any_eq_true _ _).mp h
    exact seq_passes balanced_joins (item_passes hba hk)
      (seq_one balanced_joins (trivia_balanced _))

end

theorem closing_current {k : TokenKind} {d : Cursor → Diagnostic}
    (h : (if c.current? = some k then bump c else report d c).diagnostics = []) :
    c.current? = some k := by
  by_contra hk
  simp [hk, report] at h

theorem enclosed_faultless {kind : NodeKind} {t : Token} {i e : Output}
    (h : Faultless (enclosed kind t i e)) : Faultless i ∧ e.diagnostics = [] := by
  obtain ⟨hruns, hsilent, htidy⟩ := h
  simp only [enclosed, Bool.or_eq_false_iff] at hruns
  simp only [enclosed, List.append_eq_nil_iff] at hsilent
  have hinside : BracelessArrays (i.trees ++ e.trees) := (forall_nodes_node.mp htidy).2
  exact ⟨⟨hruns.1, hsilent.1, (forall_nodes_append.mp hinside).1⟩, hsilent.2⟩

theorem enclosed_carries {Q R : List Token → Prop} {p : Rule} {t u : Token} {ts us : List Token}
    {size : Nat} {kind : NodeKind} {list : Rule} {close : Rule}
    (hp : ∀ ts size, p ⟨t :: ts, size⟩ =
      enclosed kind t (list ⟨ts, size⟩) (close (list ⟨ts, size⟩).cursor))
    (hclose : ∀ us size, close ⟨u :: us, size⟩ = bump ⟨u :: us, size⟩)
    (hlist : Carries v Q list ⟨ts, size⟩) (hcur : (list ⟨ts, size⟩).cursor = ⟨u :: us, size⟩)
    (hR : ∀ inner, tokensAll (list ⟨ts, size⟩).trees = inner → Q inner → R (t :: (inner ++ [u]))) :
    Carries v R p ⟨t :: ts, size⟩ := by
  have hv : v.extend ⟨t :: ts, size⟩ = ⟨t :: (ts ++ v.tokens), v.stop⟩ := rfl
  have hout : p ⟨t :: ts, size⟩ = enclosed kind t (list ⟨ts, size⟩) (bump ⟨u :: us, size⟩) := by
    rw [hp, hcur, hclose]
  have hlong : p (v.extend ⟨t :: ts, size⟩) =
      enclosed kind t (v.output (list ⟨ts, size⟩)) (bump (v.extend ⟨u :: us, size⟩)) := by
    have hsame : list ⟨ts ++ v.tokens, v.stop⟩ = v.output (list ⟨ts, size⟩) := hlist.same
    have hend : (v.output (list ⟨ts, size⟩)).cursor = ⟨u :: (us ++ v.tokens), v.stop⟩ := by
      simp [Tail.output, Tail.extend, hcur]
    rw [hv, hp, hsame, hend, hclose]
    rfl
  have htokens : ts = tokensAll (list ⟨ts, size⟩).trees ++ u :: us := by
    simpa [hcur] using hlist.tokens
  refine ⟨?_, ?_, ?_, ?_⟩
  · rw [hlong, hout]
    simp only [Tail.extend, List.cons_append, bump_cons]
    rfl
  · rw [hout, bump_cons]
    rfl
  · rw [hout, bump_cons]
    simpa [enclosed, tokensAll, Tree.tokens] using htokens
  · rw [hout, bump_cons]
    simpa [enclosed, tokensAll, Tree.tokens] using hR _ rfl hlist.piece

theorem list_carries {Q : List Token → Prop} {test : Cursor → Bool} {p : Rule} (hQ : PassesAlong Q)
    (hbare : ∀ us, Braceless us → Q us) (htest : ∀ c, test c = true → test (v.extend c) = true)
    (hround : ∀ c, test c = true → Passes v Q p c) (hm : v.Meets c)
    (hclean : Faultless (seq [trivia, many test p] c))
    (hend : test (v.extend (seq [trivia, many test p] c).cursor) = false) :
    Carries v Q (seq [trivia, many test p]) c := by
  exact resumes_over (list_resumes hQ hbare htest hround c hm hclean) hend

theorem element_passes {nested : Rule}
    (hn : ∀ c, c.current? = some .leftBracket → Passes v Braceless nested c)
    (h : inArray c = true) :
    Passes v Inner (element nested) c := by
  obtain ⟨k, hk, hin⟩ := (Option.any_eq_true _ _).mp h
  obtain ⟨t, ts, hc, ht⟩ := current_cons hk
  have hhead : (v.extend c).tokens.head?.any isSeparator = c.tokens.head?.any isSeparator := by
    rw [hc]
    rfl
  have hv := v.current_some hk
  by_cases hsep : c.tokens.head?.any isSeparator = true
  · refine passes_as (q := bump) (if_pos hsep) (if_pos (hhead.trans hsep)) (bump_passes hk ?_)
    rintro u rfl w hw hr
    obtain rfl := List.mem_singleton.mp hw
    simp [hr] at hin
  by_cases hl : k = .leftBracket
  · subst hl
    refine passes_as (q := node .attributeValue nested) ?_ ?_
      (passes_weaken (node_passes _ (hn c hk)) fun _ => braceless_inner)
    · simp only [element, if_neg hsep, hk, if_true]
    · simp only [element, hhead, if_neg hsep, hv, if_true]
  · refine passes_as (q := node .attributeValue (take elementLength)) ?_ ?_ (node_passes _ ?_)
    · simp [element, hsep, hk, hl]
    · simp [element, hhead, hsep, hv, hl]
    · exact take_passes (v.element_length _) (run_le _ _) (element_tokens _)

/-- An array that is closed in front of the newline and holds no opening brace. -/
theorem array_passes (n : Nat) (h : c.current? = some .leftBracket) :
    Passes v Braceless (array n) c := by
  induction n generalizing c with
  | zero => exact passes_reported (report_speaks _ _ c)
  | succ n ih =>
    obtain ⟨t, ts, hc, ht⟩ := current_cons h
    rw [hc]
    intro hm hclean
    have hout := array_enclosed n t ts c.stop
    rw [hout] at hclean
    obtain ⟨hlist, hclosed⟩ := enclosed_faultless hclean
    have hcur := closing_current hclosed
    obtain ⟨u, us, hu, hk⟩ := current_cons hcur
    have hcarries := list_carries inner_joins (fun _ => braceless_inner) ?_ ?_ hm.tail hlist ?_
    · have hsize : (seq [trivia, many inArray (seq [element (array n), trivia])]
          ⟨ts, c.stop⟩).cursor.stop = c.stop := hcarries.stop
      rw [hsize] at hu
      refine enclosed_carries (fun ts size => array_enclosed n t ts size) ?_ hcarries hu ?_
      · intro us size
        exact if_pos (congrArg some hk)
      · intro inner hi hin w hw
        have htidy : ∀ w ∈ tokensAll (seq [trivia, many inArray (seq [element (array n), trivia])]
            ⟨ts, c.stop⟩).trees, w.kind ≠ .leftBrace := by
          intro w hw
          refine hclean.tidy _ (List.mem_append_left _ List.mem_cons_self) rfl w ?_
          simp [Tree.tokens, tokensAll, hw]
        rw [hi] at htidy
        rcases List.mem_cons.mp hw with rfl | hw
        · simp [isBrace, ht]
        rcases List.mem_append.mp hw with hw | hw
        · simp [isBrace, htidy w hw, hin w hw]
        · obtain rfl := List.mem_singleton.mp hw
          simp [isBrace, hk]
    · exact fun _ => v.current_any
    · intro c h
      exact seq_passes inner_joins (element_passes (fun c hc => ih hc) h)
        (seq_one inner_joins (trivia_passes (fun _ => braceless_inner) _))
    · simp [inArray, v.current_some hcur]

theorem braced_passes {n : Nat} (hba : Passable v (braced n) (array n)) (kind : NodeKind)
    {scope : Scope} (hs : scope ≠ .document) (h : c.current? = some .leftBrace) :
    Passes v BraceGroup (braced (n + 1) kind scope) c := by
  obtain ⟨t, ts, hc, ht⟩ := current_cons h
  rw [hc]
  intro hm hclean
  rw [braced_enclosed] at hclean
  obtain ⟨hlist, hclosed⟩ := enclosed_faultless hclean
  have hcur := closing_current hclosed
  obtain ⟨u, us, hu, hk⟩ := current_cons hcur
  have hresumes : Resumes v Balanced (statements (braced n) (array n) scope) _ ⟨ts, c.stop⟩ :=
    statements_resume hba hm.tail hlist
  have hend : inStatements scope
      (v.extend (statements (braced n) (array n) scope ⟨ts, c.stop⟩).cursor) = false := by
    simp [inStatements, v.current_some hcur, hs]
  have hcarries : Carries v Balanced (statements (braced n) (array n) scope) ⟨ts, c.stop⟩ :=
    resumes_over hresumes hend
  rw [hresumes.stop] at hu
  refine enclosed_carries (fun ts size => braced_enclosed n kind scope t ts size) ?_ hcarries hu ?_
  · intro us size
    exact if_pos (congrArg some hk)
  · intro inner _ hin
    exact ⟨t, inner, u, rfl, ht, hk, hin⟩

theorem braced_passable (n : Nat) : Passable v (braced n) (array n) := by
  induction n with
  | zero =>
    exact ⟨fun kind scope c _ _ => passes_reported (report_speaks _ _ c),
      fun c h => array_passes 0 h⟩
  | succ n ih =>
    exact ⟨fun kind scope c hs h => braced_passes ih kind hs h, fun c h => array_passes (n + 1) h⟩

end

theorem newline_resumes (b : NodeKind → Scope → Rule) (a : Rule) {t : Token}
    (ht : t.kind = .newline) (ts : List Token) (size : Nat) :
    many (inStatements .document) (seq [item b a .document, trivia]) ⟨t :: ts, size⟩ =
      Output.append ⟨[.token t], [], ⟨ts, size⟩, false⟩ (statements b a .document ⟨ts, size⟩) := by
  have hcur : Cursor.current? ⟨t :: ts, size⟩ = some .newline := congrArg some ht
  have hitem : item b a .document ⟨t :: ts, size⟩ = ⟨[.token t], [], ⟨ts, size⟩, false⟩ := by
    simp only [item, hcur, bump_cons]
  have hlt : (trivia ⟨ts, size⟩).cursor.tokens.length < (t :: ts).length := by
    simp only [trivia, take, Cursor.drop, List.length_drop, List.length_cons]
    omega
  rw [many, if_pos (by simp [inStatements, hcur])]
  simp only [seq, andThen, hitem, Output.append, skip, statements, List.append_nil,
    Bool.or_false, Bool.false_or, List.nil_append]
  rw [if_pos hlt]
  simp

/-- A clean document in front of a newline is read as it is alone, and the tokens behind the
newline as a document of their own. -/
theorem document_continues (v : Tail) {ts : List Token} {size : Nat} (hm : v.Meets ⟨ts, size⟩)
    (hclean : Faultless (document ⟨ts, size⟩)) :
    document ⟨ts ++ v.tokens, v.stop⟩ =
      Output.append
        ⟨(document ⟨ts, size⟩).trees ++ [.token v.newline], [], ⟨v.rest, v.stop⟩, false⟩
        (document ⟨v.rest, v.stop⟩) := by
  obtain ⟨hsame, -, htokens, -⟩ := statements_resume (braced_passable maxNesting) hm hclean
  have hend : (document ⟨ts, size⟩).cursor.tokens = [] := by
    obtain ⟨-, hd, -⟩ := document_derives ts size
    have hall := Derivation.outermost_tokens hd
    exact List.append_cancel_left (htokens.symm.trans hall)
  have hnext : v.extend (document ⟨ts, size⟩).cursor = ⟨v.newline :: v.rest, v.stop⟩ := by
    simp [Tail.extend, hend, Tail.tokens]
  refine Eq.trans hsame ?_
  show (v.output (document ⟨ts, size⟩)).append
    (many _ _ (v.extend (document ⟨ts, size⟩).cursor)) = _
  rw [hnext, newline_resumes _ _ v.kind]
  simp only [Output.append, Tail.output, hclean.silent, hclean.runs]
  simp [document]

end DiagramText.Continuation
