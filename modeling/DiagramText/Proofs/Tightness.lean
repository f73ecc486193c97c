import DiagramText.Proofs.Locality
import DiagramText.Proofs.Widths

/-!
# Nodes of clean documents are tight

A rule passes blanks, comments and line ends only where something of its own
follows them, so in a text without diagnostics every node below the document
starts and ends with a token that counts. That is shown rule by rule, for the
row of tokens that a rule takes: it can be any row, one whose last token counts
if there is one, or one that has a first and a last token and both count. A node
that falls short has something reported, by the grammar or, where it holds a
token that cannot be read, by the scanner.
-/

set_option autoImplicit false

namespace DiagramText.Tightness
open Rule Lookahead Grammar Measures Production Reading Nesting DiagramText.Tree
open Joint (report_speaks)

/-- A token with which a tight node can start or end. -/
def isFirm (k : TokenKind) : Bool := !(k.isTrivia || k == .newline || k == .semicolon)

/-- A token that no label and no bare value holds. -/
def endsText : TokenKind → Bool
  | .newline | .semicolon | .comment | .blockComment | .rightBrace => true
  | _ => false

/-- A label, or a value that is not an array. -/
def isText (n : Tree) : Bool :=
  n.isKind .labelDefinition || n.isKind .attributeValue && (n.child? .array).isNone

structure Tight (n : Tree) : Prop where
  accepted : n.kind? ≠ some .error
  first : ∃ t ∈ n.firstToken?, isFirm t.kind = true
  last : ∃ t ∈ n.lastToken?, isFirm t.kind = true
  text : isText n = true → ∀ t ∈ n.tokens, endsText t.kind = false

/-- The row has a last token, and that one counts. -/
def Closed (us : List Token) : Prop := ∃ t ∈ us.getLast?, isFirm t.kind = true

structure Firm (us : List Token) : Prop where
  first : ∃ t ∈ us.head?, isFirm t.kind = true
  last : Closed us

/-- If the row has a token, the last one counts. -/
def EndsClosed (us : List Token) : Prop := us ≠ [] → Closed us

def Any (_ : List Token) : Prop := True

theorem ends_nil : EndsClosed [] := fun h => absurd rfl h

theorem closed_ends {us : List Token} (h : Closed us) : EndsClosed us := fun _ => h

theorem closed_behind (us : List Token) {vs : List Token} (h : Closed vs) : Closed (us ++ vs) := by
  obtain ⟨t, ht, hk⟩ := h
  exact ⟨t, by rw [List.getLast?_append, Option.mem_def.mp ht, Option.some_or]; rfl, hk⟩

theorem closed_append {us vs : List Token} (hu : Closed us) (hv : EndsClosed vs) :
    Closed (us ++ vs) := by
  by_cases h : vs = []
  · rwa [h, List.append_nil]
  · exact closed_behind us (hv h)

theorem ends_append {us vs : List Token} (hu : EndsClosed us) (hv : EndsClosed vs) :
    EndsClosed (us ++ vs) := by
  by_cases h : us = []
  · rwa [h, List.nil_append]
  · exact closed_ends (closed_append (hu h) hv)

theorem firm_first {us : List Token} (first : ∃ t ∈ us.head?, isFirm t.kind = true)
    (ends : EndsClosed us) : Firm us := by
  refine ⟨first, ends ?_⟩
  obtain ⟨t, ht, -⟩ := first
  rintro rfl
  simp at ht

theorem firm_append {us vs : List Token} (hu : Firm us) (hv : EndsClosed vs) : Firm (us ++ vs) := by
  obtain ⟨t, ht, hk⟩ := hu.first
  obtain ⟨rest, rfl⟩ := List.head?_eq_some_iff.mp ht
  exact ⟨⟨t, rfl, hk⟩, closed_append hu.last hv⟩

theorem firm_token {t : Token} (h : isFirm t.kind = true) : Firm [t] :=
  ⟨⟨t, rfl, h⟩, ⟨t, rfl, h⟩⟩

theorem segment_firm {k : TokenKind} (h : startsSegment k = true) : isFirm k = true := by
  cases k <;> simp_all [startsSegment, isFirm, TokenKind.isTrivia]

theorem text_firm {k : TokenKind} (h : startsText k = true) : isFirm k = true := by
  cases k <;> simp_all [startsText, isTerminator, isFirm, TokenKind.isTrivia]

theorem element_firm {t : Token} (hs : isSeparator t = false) (ht : t.isTrivia = false) :
    isFirm t.kind = true := by
  cases h : t.kind <;> simp_all [isSeparator, Token.isTrivia, isFirm, TokenKind.isTrivia]

theorem connector_firm {k : TokenKind} (h : k.isConnector = true) : isFirm k = true := by
  cases k <;> simp_all [TokenKind.isConnector, TokenKind.connector?, isFirm, TokenKind.isTrivia]

theorem words_end (ts : List Token) : EndsClosed (ts.take (moreWords ts)) := by
  fun_induction moreWords ts with
  | case1 blank word ts h ih =>
    have hword : Firm [word] := firm_token (by rw [h.2]; rfl)
    exact closed_ends (closed_append (closed_behind [blank] hword.last) ih)
  | case2 => exact ends_nil
  | case3 => exact ends_nil

theorem segment_end (ts : List Token) : EndsClosed (ts.take (segmentLength ts)) := by
  cases ts with
  | nil => exact ends_nil
  | cons t ts =>
    by_cases hi : t.kind = .identifier
    · have hword : Firm [t] := firm_token (by rw [hi]; rfl)
      simpa [segmentLength, hi] using closed_ends (closed_append hword.last (words_end ts))
    · by_cases hs : t.kind = .string
      · have hstring : Firm [t] := firm_token (by rw [hs]; rfl)
        simpa [segmentLength, hs] using closed_ends hstring.last
      · simpa [segmentLength, hi, hs] using ends_nil

theorem path_head {ts : List Token} (h : ts.head?.any (startsSegment ·.kind) = true) :
    ∃ t ∈ (ts.take (pathLength ts)).head?, isFirm t.kind = true := by
  obtain ⟨t, ht, hk⟩ := (Option.any_eq_true _ _).mp h
  obtain ⟨rest, rfl⟩ := List.head?_eq_some_iff.mp ht
  have hpos := path_pos t rest hk
  exact ⟨t, by simp [List.head?_take, hpos.ne'], segment_firm hk⟩

theorem path_end (ts : List Token) : EndsClosed (ts.take (pathLength ts)) := by
  unfold pathLength
  fun_induction path ts with
  | case1 ts n hn hj => exact segment_end ts
  | case2 ts n hn k hj rest ih =>
    obtain ⟨-, hstarts, -⟩ := joint_parts hj
    rw [List.drop_drop] at hstarts
    have hrest : Firm ((ts.drop (n + k)).take rest.length) := firm_first (path_head hstarts) ih
    simpa only [List.take_add] using closed_ends (closed_behind (ts.take (n + k)) hrest.last)
  | case3 ts n hn => exact ends_nil

/-- A run whose first token counts, if whatever does not stop it counts or is a blank. -/
theorem run_firm {stops : Token → Bool} {t : Token} {ts : List Token}
    (hstops : ∀ u, stops u = false → u.kind ≠ .whitespace → isFirm u.kind = true)
    (ht : isFirm t.kind = true) (hpos : 0 < runLength stops (t :: ts)) :
    Firm ((t :: ts).take (runLength stops (t :: ts))) := by
  refine firm_first ⟨t, by simp [List.head?_take, hpos.ne'], ht⟩ fun hne => ?_
  have hlast := List.getLast?_eq_some_getLast hne
  exact ⟨_, hlast,
    hstops _ (run_tokens stops _ _ (List.mem_of_getLast? hlast)) (run_last stops _ _ hlast)⟩

theorem text_stops (t : Token) (hs : stopsText t = false) (hk : t.kind ≠ .whitespace) :
    isFirm t.kind = true := by
  cases h : t.kind <;> simp_all [stopsText, isFirm, TokenKind.isTrivia]

theorem element_stops (t : Token) (hs : stopsElement t = false) (hk : t.kind ≠ .whitespace) :
    isFirm t.kind = true := by
  cases h : t.kind <;> simp_all [stopsElement, isSeparator, isFirm, TokenKind.isTrivia]

theorem text_unbroken (t : Token) (hs : stopsText t = false) : endsText t.kind = false := by
  cases h : t.kind <;> simp_all [stopsText, endsText]

theorem element_unbroken (t : Token) (hs : stopsElement t = false) : endsText t.kind = false := by
  cases h : t.kind <;> simp_all [stopsElement, isSeparator, endsText]

/-- The node is tight, or the scanner has reported a token in it. -/
def TightOrFaulty (n : Tree) : Prop := Tight n ∨ ∃ t ∈ n.tokens, t.kind = .error

/-- If nothing is reported, the nodes are kept, and the tokens are such a row. -/
def Clean (E : List Token → Prop) (o : Output) : Prop :=
  o.diagnostics = [] → (∀ n ∈ nodesAll o.trees, TightOrFaulty n) ∧ E (tokensAll o.trees)

section

variable {E F G : List Token → Prop} {c : Cursor} {k : TokenKind} {p : Rule} {o : Output}

theorem clean_reported (h : o.diagnostics ≠ []) : Clean E o := fun hd => absurd hd h

theorem clean_weaken (h : Clean E o) (hEF : ∀ us, E us → F us) : Clean F o :=
  fun hd => (h hd).imp_right (hEF _)

theorem clean_any (h : Clean E o) : Clean Any o := clean_weaken h fun _ _ => trivial

theorem clean_ends (h : Clean Closed o) : Clean EndsClosed o := clean_weaken h fun _ => closed_ends

theorem clean_append {a b : Output} (ha : Clean E a) (hb : Clean F b)
    (h : ∀ us vs, E us → F vs → G (us ++ vs)) : Clean G (a.append b) := by
  intro hd
  obtain ⟨hda, hdb⟩ := List.append_eq_nil_iff.mp hd
  obtain ⟨hna, hea⟩ := ha hda
  obtain ⟨hnb, heb⟩ := hb hdb
  refine ⟨forall_nodes_append.mpr ⟨hna, hnb⟩, ?_⟩
  rw [Output.append, tokensAll_append]
  exact h _ _ hea heb

theorem clean_seq {ps : List Rule} (hp : Clean E (p c)) (hps : Clean F (seq ps (p c).cursor)) :
    Clean Any (seq (p :: ps) c) := clean_append hp hps fun _ _ _ _ => trivial

theorem clean_behind {ps : List Rule} (hp : Clean E (p c))
    (hps : Clean Closed (seq ps (p c).cursor)) : Clean Closed (seq (p :: ps) c) :=
  clean_append hp hps fun us _ _ => closed_behind us

theorem clean_then {ps : List Rule} (hp : Clean EndsClosed (p c))
    (hps : Clean EndsClosed (seq ps (p c).cursor)) : Clean EndsClosed (seq (p :: ps) c) :=
  clean_append hp hps fun _ _ => ends_append

theorem clean_front {ps : List Rule} (hp : Clean Firm (p c))
    (hps : Clean EndsClosed (seq ps (p c).cursor)) : Clean Firm (seq (p :: ps) c) :=
  clean_append hp hps fun _ _ => firm_append

theorem clean_one (hp : Clean E (p c)) : Clean E (seq [p] c) := by
  have hskip : seq [p] c = p c := by
    simp [seq, andThen, Output.append, skip]
  rwa [hskip]

theorem clean_last (hp : Clean Firm (p c)) : Clean Closed (seq [p] c) :=
  clean_weaken (clean_one hp) fun _ => Firm.last

theorem clean_take {length : List Token → Nat} (h : E (c.tokens.take (length c.tokens))) :
    Clean E (take length c) := by
  intro _
  simp only [take, nodesAll_map_token, tokensAll_map_token]
  exact ⟨by simp, h⟩

theorem clean_skip (h : E []) : Clean E (skip c) := fun _ => ⟨by simp [skip, nodesAll], h⟩

theorem clean_trivia (c : Cursor) : Clean Any (trivia c) := clean_take trivial

theorem clean_bump (c : Cursor) : Clean Any (bump c) := clean_take trivial

theorem firm_bump (h : c.current? = some k) (hk : isFirm k = true) : Clean Firm (bump c) := by
  obtain ⟨t, ts, hc, rfl⟩ := current_cons h
  rw [hc, bump_cons]
  intro _
  simpa [tokensAll, tokens, nodesAll, nodes] using firm_token hk

theorem clean_whenNext {test : TokenKind → Bool} (nil : E [])
    (h : ∀ k, c.peek? = some k → test k = true → Clean E (p c)) :
    Clean E (whenNext test p c) := by
  unfold whenNext
  split
  · next ht =>
    obtain ⟨k, hk, ht⟩ := (Option.any_eq_true _ _).mp ht
    exact h k hk ht
  · exact clean_skip nil

theorem clean_many {test : Cursor → Bool} {I : Cursor → Prop} (nil : E [])
    (join : ∀ us vs, E us → E vs → E (us ++ vs))
    (round : ∀ c, I c → test c = true → Clean E (p c) ∧ I (p c).cursor) (c : Cursor) (hc : I c) :
    Clean E (many test p c) := by
  fun_induction many test p c with
  | case1 c ht a _ ih =>
    obtain ⟨hp, hi⟩ := round c hc ht
    exact clean_append hp (ih hi) join
  | case2 c ht a _ => exact (round c hc ht).1
  | case3 c ht => exact clean_skip nil

theorem clean_node {kind : NodeKind} (h : Clean E (p c))
    (kept : E (tokensAll (p c).trees) → TightOrFaulty (.node kind c.offset (p c).trees)) :
    Clean E (node kind p c) := by
  intro hd
  obtain ⟨hnodes, hrow⟩ := h hd
  refine ⟨forall_nodes_node.mpr ⟨kept hrow, hnodes⟩, ?_⟩
  simpa [Rule.node, tokensAll, tokens] using hrow

/-- A node that is neither a text nor an error has only to be firm. -/
theorem firm_node {kind : NodeKind} (accepted : kind ≠ .error)
    (text : kind ≠ .labelDefinition ∧ kind ≠ .attributeValue) (h : Clean Firm (p c)) :
    Clean Firm (node kind p c) := by
  refine clean_node h fun hrow => .inl ⟨by simpa [kind?] using accepted, hrow.first, hrow.last, ?_⟩
  intro ht
  simp [isText, isKind, kind?, text] at ht

theorem firm_text {kind : NodeKind} {length : List Token → Nat} (accepted : kind ≠ .error)
    (firm : Firm (c.tokens.take (length c.tokens)))
    (unbroken : ∀ t ∈ c.tokens.take (length c.tokens), endsText t.kind = false) :
    Clean Firm (node kind (take length) c) := by
  refine clean_node (clean_take firm) fun hrow =>
    .inl ⟨by simpa [kind?] using accepted, hrow.first, hrow.last, fun _ => ?_⟩
  simpa only [take, tokens, tokensAll_map_token] using unbroken

end

theorem clean_discard {c : Cursor} (h : c.current? = some .error) : Clean Any (discard c) := by
  obtain ⟨n, -, hn, hle, -, -⟩ := Braces.statement_measure 0 c.tokens
  have hpos : 0 < n := by
    obtain ⟨t, ts, hc, hk⟩ := current_cons h
    rw [hc] at hn
    exact Braces.statement_pos t ts n (by simp [hk, isTerminator]) hn
  obtain ⟨t, us, hs, -, ho, -⟩ := counted_node hn hpos hle
  intro _
  rw [Grammar.discard, ho]
  refine ⟨forall_nodes_node.mpr ⟨.inr ⟨t, ?_, current_head h hs⟩, ?_⟩, trivial⟩
  · rw [tokens, tokensAll_map_token]
    exact List.mem_cons_self
  · simp only [nodesAll_map_token]
    simp

theorem clean_recover (c : Cursor) : Clean Any (recover c) :=
  clean_reported (report_speaks _ _ c)

theorem clean_terminated (c : Cursor) : Clean Any (terminated c) := by
  unfold terminated
  split
  · exact clean_skip trivial
  · next k hk =>
    split
    · exact clean_skip trivial
    · split
      · next he =>
        have hcur : (trivia c).cursor.current? = some .error := by rw [trivia_current, hk, he]
        exact clean_seq (clean_trivia c) (clean_one (clean_discard hcur))
      · exact clean_seq (clean_trivia c) (clean_one (clean_recover _))

theorem clean_text {kind : NodeKind} (accepted : kind ≠ .error) (c : Cursor) :
    Clean EndsClosed (whenNext startsText (seq [trivia, node kind (take textLength)]) c) := by
  refine clean_whenNext ends_nil fun k hk hstarts =>
    clean_ends (clean_behind (clean_trivia c) (clean_last ?_))
  obtain ⟨t, ts, hc, rfl⟩ := current_cons ((trivia_current c).trans hk)
  rw [hc]
  exact firm_text accepted (run_firm text_stops (text_firm hstarts) (text_pos t ts hstarts))
    fun u hu => text_unbroken u (run_tokens stopsText _ u hu)

theorem clean_colon {p : Rule} (hp : ∀ c, Clean EndsClosed (p c)) (c : Cursor) :
    Clean EndsClosed (whenNext (· == .colon) (seq [trivia, bump, p]) c) := by
  refine clean_whenNext ends_nil fun k hk hcolon =>
    clean_ends (clean_behind (clean_trivia c) (clean_weaken ?_ fun _ => Firm.last))
  obtain rfl : k = .colon := by simpa using hcolon
  exact clean_front (firm_bump ((trivia_current c).trans hk) rfl) (clean_one (hp _))

theorem clean_label (c : Cursor) : Clean EndsClosed (label c) :=
  clean_colon (clean_text (by simp)) c

theorem clean_path {kind : NodeKind} (kinds : kind = .shapeId ∨ kind = .propertyKey) {c : Cursor}
    {k : TokenKind} (h : c.current? = some k) (hk : startsSegment k = true) :
    Clean Firm (node kind (take pathLength) c) := by
  have hhead : c.tokens.head?.any (startsSegment ·.kind) = true := by
    obtain ⟨t, ts, hc, rfl⟩ := current_cons h
    rw [hc]
    exact hk
  have hpath : Firm (c.tokens.take (pathLength c.tokens)) :=
    firm_first (path_head hhead) (path_end c.tokens)
  rcases kinds with rfl | rfl <;> exact firm_node (by simp) (by simp) (clean_take hpath)

theorem clean_close {k : TokenKind} (hk : isFirm k = true) (d : Cursor → Diagnostic)
    (c : Cursor) : Clean Firm (if c.current? = some k then bump c else report d c) := by
  split
  · next h => exact firm_bump h hk
  · exact clean_reported (by simp [report])

/-- What the rules one level down build. -/
structure NestedFirm (b : NodeKind → Scope → Rule) (a : Rule) : Prop where
  block : ∀ {kind scope c}, bodyScope? kind = some scope → c.current? = some .leftBrace →
    Clean Firm (b kind scope c)
  array : ∀ {c}, c.current? = some .leftBracket → Clean Firm (node .attributeValue a c)

section

variable {b : NodeKind → Scope → Rule} {a : Rule} (h : NestedFirm b a)

include h

theorem clean_value (c : Cursor) : Clean EndsClosed (value a c) := by
  refine clean_colon (fun c => ?_) c
  split
  · next hp =>
    exact clean_ends (clean_behind (clean_trivia c)
      (clean_last (h.array ((trivia_current c).trans hp))))
  · exact clean_text (by simp) c

theorem clean_body {kind : NodeKind} {scope : Scope} (hbody : bodyScope? kind = some scope)
    (c : Cursor) : Clean EndsClosed (body (b kind scope) c) := by
  refine clean_whenNext ends_nil fun k hk hbrace =>
    clean_ends (clean_behind (clean_trivia c) (clean_last ?_))
  obtain rfl : k = .leftBrace := by simpa using hbrace
  exact h.block hbody ((trivia_current c).trans hk)

theorem clean_shape {c : Cursor} {k : TokenKind} (hc : c.current? = some k)
    (hk : startsSegment k = true) : Clean Firm (shapeDefinition b c) :=
  firm_node (by simp) (by simp) (clean_front (clean_path (.inl rfl) hc hk)
    (clean_then (clean_label _) (clean_one (clean_body h rfl _))))

theorem clean_property {c : Cursor} {k : TokenKind} (hc : c.current? = some k)
    (hk : startsSegment k = true) : Clean Firm (property b a c) :=
  firm_node (by simp) (by simp) (clean_front (clean_path (.inr rfl) hc hk)
    (clean_then (clean_value h _) (clean_one (clean_body h rfl _))))

theorem clean_endpoint {c : Cursor} {k : TokenKind} (hc : c.current? = some k)
    (hk : k = .leftBrace ∨ startsSegment k = true) : Clean Firm (endpoint b c) := by
  unfold endpoint
  split
  · next hbrace => exact h.block rfl hbrace
  · next hbrace =>
    refine clean_path (.inl rfl) hc (hk.resolve_left ?_)
    rintro rfl
    exact hbrace hc

theorem clean_source {c : Cursor} {k : TokenKind} (hc : c.current? = some k)
    (hk : k.isConnector = true ∨ k = .leftBrace ∨ startsSegment k = true) :
    Clean Firm (source b c) := by
  rw [source, hc]
  dsimp only
  split
  · exact clean_reported (report_speaks _ _ c)
  · next hplain => exact clean_endpoint h hc (hk.resolve_left hplain)

theorem clean_target (connector : TokenKind) (c : Cursor) :
    Clean Firm (target b connector c) := by
  unfold target
  split
  · next hc => exact clean_endpoint h hc (.inr rfl)
  · next hc => exact clean_endpoint h hc (.inr rfl)
  · next hc => exact clean_endpoint h hc (.inl rfl)
  · next hc =>
    refine clean_node (firm_bump hc rfl) fun _ => .inr ?_
    obtain ⟨t, ts, hc, hk⟩ := current_cons hc
    rw [hc, bump_cons]
    exact ⟨t, by simp [tokens, tokensAll], hk⟩
  · exact clean_reported (report_speaks _ _ c)

theorem clean_link {c : Cursor} (hc : c.peek?.any (·.isConnector) = true) :
    Clean EndsClosed (link b c) := by
  obtain ⟨k, hk, hconnector⟩ := (Option.any_eq_true _ _).mp hc
  rw [link, hk]
  have hbump := firm_bump ((trivia_current c).trans hk) (connector_firm hconnector)
  exact clean_ends (clean_behind (clean_trivia c) (clean_behind hbump
    (clean_behind (clean_trivia _) (clean_last (clean_target h k _)))))

theorem clean_connection {c : Cursor} {k : TokenKind} (hc : c.current? = some k)
    (hk : k.isConnector = true ∨ k = .leftBrace ∨ startsSegment k = true) :
    Clean Firm (connection b c) := by
  have hlinks (c : Cursor) : Clean EndsClosed (many (·.peek?.any (·.isConnector)) (link b) c) :=
    clean_many (I := fun _ => True) ends_nil (fun _ _ => ends_append)
      (fun c _ hc => ⟨clean_link h hc, trivial⟩) c trivial
  exact firm_node (by simp) (by simp) (clean_front (clean_source h hc hk)
    (clean_then (hlinks _) (clean_then (clean_label _) (clean_one (clean_body h rfl _)))))

theorem clean_bareBlock {c : Cursor} (hc : c.current? = some .leftBrace) (scope : Scope) :
    Clean Any (bareBlock b scope c) := by
  cases scope with
  | document => exact clean_reported (report_speaks _ _ c)
  | shape => exact clean_any (h.block rfl hc)
  | block => exact clean_recover c

theorem clean_named {c : Cursor} {k : TokenKind} (hc : c.current? = some k)
    (hk : startsSegment k = true) (scope : Scope) : Clean Any (named b a scope c) := by
  unfold named
  dsimp only
  split
  · exact clean_any (clean_connection h hc (.inr (.inr hk)))
  · split
    · exact clean_any (clean_property h hc hk)
    · exact clean_any (clean_shape h hc hk)

theorem clean_statement (scope : Scope) (c : Cursor) : Clean Any (statement b a scope c) := by
  unfold statement
  split
  · next hc =>
    split
    · exact clean_any (clean_connection h hc (.inr (.inl rfl)))
    · exact clean_bareBlock h hc scope
    · exact clean_skip (c := c) trivial
  · next hc => exact clean_named h hc rfl scope
  · next hc => exact clean_named h hc rfl scope
  · next hc => exact clean_discard hc
  · next k _ _ _ _ hc =>
    split
    · next hconnector => exact clean_any (clean_connection h hc (.inl hconnector))
    · exact clean_recover c
  · exact clean_skip trivial

theorem clean_item (scope : Scope) (c : Cursor) : Clean Any (item b a scope c) := by
  unfold item
  split
  · exact clean_bump c
  · exact clean_bump c
  · exact clean_reported (report_speaks _ _ c)
  · exact clean_seq (clean_statement h scope c) (clean_one (clean_terminated _))

theorem clean_statements (scope : Scope) (c : Cursor) : Clean Any (statements b a scope c) := by
  have hitems (c : Cursor) :
      Clean Any (many (inStatements scope) (seq [item b a scope, trivia]) c) :=
    clean_many (I := fun _ => True) trivial (fun _ _ _ _ => trivial) (fun c _ _ =>
      ⟨clean_seq (clean_item h scope c) (clean_one (clean_trivia _)), trivial⟩) c trivial
  exact clean_seq (clean_trivia c) (clean_one (hitems _))

theorem clean_element {c : Cursor} (hs : Settled c) (hin : inArray c = true) :
    Clean Any (element a c) := by
  obtain ⟨k, hk, hin⟩ := (Option.any_eq_true _ _).mp hin
  unfold element
  split
  · exact clean_bump c
  · next hsep =>
    split
    · next hbracket => exact clean_any (h.array hbracket)
    · next hbracket =>
      obtain ⟨t, ts, hc, rfl⟩ := current_cons hk
      rw [hc] at hsep
      have hsep : isSeparator t = false := by simpa using hsep
      have htrivia : t.isTrivia = false := hs t.kind hk
      have hbracket : t.kind ≠ .leftBracket := fun he => hbracket (by rw [hk, he])
      simp only [Bool.not_eq_true', Bool.or_eq_false_iff, beq_eq_false_iff_ne] at hin
      have hpos := element_pos t ts hsep htrivia hbracket hin.1 hin.2
      rw [hc]
      exact clean_any (firm_text (by simp)
        (run_firm element_stops (element_firm hsep htrivia) hpos)
        fun u hu => element_unbroken u (run_tokens stopsElement _ u hu))

theorem clean_elements {c : Cursor} (hs : Settled c) :
    Clean Any (many inArray (seq [element a, trivia]) c) :=
  clean_many (I := Settled) trivial (fun _ _ _ _ => trivial) (fun _ hs hin =>
    ⟨clean_seq (clean_element h hs hin) (clean_one (clean_trivia _)), trivia_settled _⟩) c hs

end

theorem clean_block {room : Nat} (h : NestedFirm (braced room) (array room)) {kind : NodeKind}
    {scope : Scope} (hbody : bodyScope? kind = some scope) {c : Cursor}
    (hc : c.current? = some .leftBrace) : Clean Firm (braced (room + 1) kind scope c) := by
  have hrow : Clean Firm (seq [bump, statements (braced room) (array room) scope,
      closeBlock c.span] c) :=
    clean_front (firm_bump hc rfl) (clean_ends
      (clean_behind (clean_statements h scope _) (clean_last (clean_close rfl _ _))))
  refine firm_node ?_ ?_ hrow
  · rintro rfl
    simp [bodyScope?] at hbody
  · constructor <;> rintro rfl <;> simp [bodyScope?] at hbody

theorem clean_array {room : Nat} (h : NestedFirm (braced room) (array room)) {c : Cursor}
    (hc : c.current? = some .leftBracket) :
    Clean Firm (node .attributeValue (array (room + 1)) c) := by
  have hrow : Clean Firm (seq [bump, trivia, many inArray (seq [element (array room), trivia]),
      closeArray c.span] c) :=
    clean_front (firm_bump hc rfl) (clean_ends (clean_behind (clean_trivia _)
      (clean_behind (clean_elements h (trivia_settled _)) (clean_last (clean_close rfl _ _)))))
  have harray : Clean Firm (array (room + 1) c) := firm_node (by simp) (by simp) hrow
  refine clean_node harray fun hrow => .inl ⟨by simp [kind?], hrow.first, hrow.last, ?_⟩
  intro ht
  simp [isText, isKind, kind?, child?, elements, array, Rule.node] at ht

theorem levels_nested (room : Nat) : NestedFirm (braced room) (array room) := by
  induction room with
  | zero =>
    exact ⟨fun _ _ => clean_reported (report_speaks _ _ _),
      fun {c} _ => clean_reported (report_speaks _ _ c)⟩
  | succ room ih => exact ⟨fun hbody hc => clean_block ih hbody hc, fun hc => clean_array ih hc⟩

theorem document_kept (ts : List Token) (size : Nat)
    (silent : (document ⟨ts, size⟩).diagnostics = []) :
    ∀ n ∈ nodesAll (document ⟨ts, size⟩).trees, TightOrFaulty n :=
  (clean_statements (levels_nested maxNesting) .document ⟨ts, size⟩ silent).1

/-- In a text without diagnostics, every node below the document has width, starts and ends with
tokens that count, and holds no line end, comment or closing brace if it is a text. -/
theorem parse_tight (text : String) (clean : (parse text).diagnostics = []) :
    ∀ n ∈ nodesAll (parse text).tree.elements, n.start < n.stop ∧ Tight n := by
  intro n hn
  obtain ⟨hscan, hread⟩ := List.append_eq_nil_iff.mp clean
  have htight : Tight n := by
    rcases document_kept _ _ hread n hn with htight | ⟨t, ht, herror⟩
    · exact htight
    · obtain ⟨before, after, htokens, -⟩ :=
        Lossless.nodes_covered text n (List.mem_cons_of_mem _ hn)
      have hmem : t ∈ (tokenize text).1 := by simp [htokens, ht]
      exact absurd herror (Locality.drain_readable (.ofText text) hscan t hmem)
  exact ⟨Widths.parse_wide text hn htight.accepted, htight⟩

theorem commented_blocks_tight :
    (parse "a.b : c d  # e\nx -> y: z  \x7b class: [ p, [q] ]  \x7d ; w  ").diagnostics = [] ∧
      ∀ n ∈ nodesAll
          (parse "a.b : c d  # e\nx -> y: z  \x7b class: [ p, [q] ]  \x7d ; w  ").tree.elements,
        n.start < n.stop ∧ Tight n := by
  have hclean : (parse
      "a.b : c d  # e\nx -> y: z  \x7b class: [ p, [q] ]  \x7d ; w  ").diagnostics = [] := by
    decide +kernel
  exact ⟨hclean, parse_tight _ hclean⟩

end DiagramText.Tightness
