import DiagramText.Proofs.Reading

/-!
# Statements follow derivations

The statements are read with the rules one level down as parameters: all that
is needed of these is what they do at an opening brace and at an opening
bracket. A connection is read at a connector, at a path with a connector
behind it, or at a block that lookahead has found before a connector. Only in
the last case can the first endpoint be followed by something else.
-/

set_option autoImplicit false

namespace DiagramText.Statements
open Rule Lookahead Grammar Measures Braces Production DiagramText.Derivation Reading

theorem whenNext_yields {test : TokenKind → Bool} {p : Rule} {c : Cursor}
    {S : List Symbol → Prop} (nil : S [])
    (h : ∀ k, c.peek? = some k → test k = true → Yields Derives c (p c) S) :
    Yields Derives c (whenNext test p c) S := by
  unfold whenNext
  split
  · next ht =>
    obtain ⟨k, hk, ht⟩ := (Option.any_eq_true _ _).mp ht
    exact h k hk ht
  · exact yields_weaken (skip_yields derives_chains c) (by rintro w rfl; exact nil)

theorem trivia_first {ps : List Rule} {c : Cursor} {S : List Symbol → Prop}
    (h : Yields Derives (trivia c).cursor (seq ps (trivia c).cursor) S) :
    Yields Derives c (seq (trivia :: ps) c) S :=
  seq_yields derives_chains _ _ (trivia_yields c) h (by rintro u v rfl hv; exact hv)

theorem after_trivia {p : Rule} {c : Cursor} {k : TokenKind} {S : List Symbol → Prop}
    (hk : c.peek? = some k)
    (h : ∀ c' : Cursor, c'.current? = some k → Yields Derives c' (p c') S) :
    Yields Derives c (seq [trivia, p] c) S :=
  trivia_first (seq_last derives_chains p (h _ ((trivia_current c).trans hk)))

theorem terminated_yields (c : Cursor) :
    Yields Derives c (terminated c) (fun w => w = [] ∨ w = [.node .error]) := by
  unfold terminated
  split
  · exact yields_weaken (skip_yields derives_chains c) (fun _ => .inl)
  · next k hk =>
    split
    · exact yields_weaken (skip_yields derives_chains c) (fun _ => .inl)
    · next ht =>
      split
      · next he =>
        subst he
        exact yields_weaken (after_trivia hk fun c' h => (discard_yields h).1) (fun _ => .inr)
      · next he =>
        exact yields_weaken (after_trivia hk fun c' h =>
          (recover_yields h he (by simpa using ht)).1) (fun _ => .inr)

theorem text_yields (kind : NodeKind) (hkind : kind = .labelDefinition ∨ kind = .attributeValue)
    (c : Cursor) :
    Yields Derives c (whenNext startsText (seq [trivia, node kind (take textLength)]) c)
      (fun w => w = [] ∨ w = [.node kind]) := by
  refine whenNext_yields (.inl rfl) fun k hk ht => ?_
  refine yields_weaken (after_trivia hk fun c' h => ?_) (fun _ => .inr)
  obtain ⟨t, ts, hc, rfl⟩ := current_cons h
  have hplain := text_tokens c'.tokens
  have hpos : 0 < textLength c'.tokens := by
    rw [hc]
    exact text_pos t ts ht
  refine (leaf_yields hpos (run_le stopsText c'.tokens) ?_ ⟨fun _ => ?_, fun _ => ?_⟩).1
  · rcases hkind with rfl | rfl
    · exact .inl ⟨by simp, hplain, by simp⟩
    · refine .inr ⟨rfl, fun u hu hr => ?_⟩
      simpa [isBrace, hr] using hplain u hu
  · exact run_shut text_blanks hpos
  · exact run_tokens stopsText c'.tokens

theorem colon_yields {p : Rule} {kind : NodeKind}
    (hp : ∀ c, Yields Derives c (p c) (fun w => w = [] ∨ w = [.node kind])) (c : Cursor) :
    Yields Derives c (whenNext (· == .colon) (seq [trivia, bump, p]) c) (Labelled kind) := by
  refine whenNext_yields .bare fun k hk ht => ?_
  obtain rfl : k = .colon := by simpa using ht
  have hcur : (trivia c).cursor.current? = some .colon := (trivia_current c).trans hk
  have hb := (bump_yields hcur (by decide) (by decide)).1
  refine trivia_first (seq_yields derives_chains _ _ hb (seq_last derives_chains p (hp _)) ?_)
  rintro u v rfl (rfl | rfl)
  · exact .colon
  · exact .full

theorem label_yields (c : Cursor) :
    Yields Derives c (label c) (Labelled .labelDefinition) :=
  colon_yields (text_yields .labelDefinition (.inl rfl)) c

/-- One node of the kind, or an error node over the whole braced group. -/
def Block (kind : NodeKind) (c : Cursor) (o : Output) : Prop :=
  ∃ x, o.trees = [x] ∧ (x.kind? = some kind ∨ x.kind? = some .error ∧
    ∃ n, groupLength? .leftBrace .rightBrace 0 c.tokens = some n ∧ o.cursor = c.drop n)

/-- What the rules one level down do at an opening brace and at an opening bracket. -/
structure Enters (braced : NodeKind → Scope → Rule) (array : Rule) : Prop where
  braced : ∀ kind scope c, bodyScope? kind = some scope → c.current? = some .leftBrace →
    Yields Derives c (braced kind scope c) (fun w => w = [.node kind] ∨ w = [.node .error]) ∧
      Shrinks c (braced kind scope c) ∧ Block kind c (braced kind scope c)
  array : ∀ c, c.current? = some .leftBracket →
    Yields Derives c (node .attributeValue array c) (· = [.node .attributeValue]) ∧
      Shrinks c (node .attributeValue array c)

section

variable {b : NodeKind → Scope → Rule} {a : Rule} (hba : Enters b a)

include hba

theorem value_yields (c : Cursor) : Yields Derives c (value a c) (Labelled .attributeValue) := by
  refine colon_yields (fun c => ?_) c
  split
  · next h =>
    exact yields_weaken (after_trivia h fun c' h' => (hba.array c' h').1) (fun _ => .inr)
  · exact text_yields .attributeValue (.inr rfl) c

theorem body_yields (kind : NodeKind) (scope : Scope) (hk : bodyScope? kind = some scope)
    (c : Cursor) : Yields Derives c (body (b kind scope) c) (Bodied kind) := by
  refine whenNext_yields .none fun k hp ht => ?_
  obtain rfl : k = .leftBrace := by simpa using ht
  refine yields_weaken (after_trivia hp fun c' h => (hba.braced kind scope c' hk h).1) ?_
  rintro w (rfl | rfl)
  · exact .body
  · exact .error

end

theorem path_yields {kind : NodeKind} (hkind : kind = .shapeId ∨ kind = .propertyKey)
    {c : Cursor} {k : TokenKind} (h : c.current? = some k) (hk : startsSegment k = true) :
    Yields Derives c (node kind (take pathLength) c) (· = [.node kind]) ∧
      Shrinks c (node kind (take pathLength) c) := by
  obtain ⟨t, ts, hc, rfl⟩ := current_cons h
  have hb := path_bound c.tokens
  refine leaf_yields ?_ hb.1
    (.inl ⟨by rcases hkind with rfl | rfl <;> simp, hb.2, fun _ => ⟨c.tokens, rfl⟩⟩)
    ⟨by rcases hkind with rfl | rfl <;> simp, by rcases hkind with rfl | rfl <;> simp⟩
  rw [hc]
  exact path_pos t ts hk

theorem definition_yields {kind key label body : NodeKind} {p q : Rule} {c : Cursor}
    {k : TokenKind} (hkind : kind = .shapeDefinition ∨ kind = .property)
    (hkey : key = .shapeId ∨ key = .propertyKey)
    (hp : ∀ c, Yields Derives c (p c) (Labelled label))
    (hq : ∀ c, Yields Derives c (q c) (Bodied body))
    (hS : ∀ xs w, signature xs = .node key :: w → Annotated label body w → Conforms kind xs)
    (h : c.current? = some k) (hk : startsSegment k = true) :
    Yields Derives c (node kind (seq [node key (take pathLength), p, q]) c) (· = [.node kind]) ∧
      Shrinks c (node kind (seq [node key (take pathLength), p, q]) c) := by
  obtain ⟨hid, hsh⟩ := path_yields hkey h hk
  have hrest (c' : Cursor) : Yields Derives c' (seq [p, q] c') (Annotated label body) :=
    seq_yields derives_chains _ _ (hp c') (seq_last derives_chains _ (hq _))
      (fun u v hu hv => ⟨u, v, rfl, hu, hv⟩)
  have hall : Yields Derives c (seq [node key (take pathLength), p, q] c)
      (fun w => ∃ v, w = .node key :: v ∧ Annotated label body v) :=
    seq_yields derives_chains _ _ hid (hrest _) (by rintro u v rfl hv; exact ⟨v, rfl, hv⟩)
  obtain ⟨w, hw, hann⟩ := hall.shape
  exact ⟨⟨hall.runs, hall.stop, .definition hkind hall.derives (hS _ w hw hann), rfl⟩,
    seq_shrinks derives_chains _ _ hsh (hrest _)⟩

section

variable {b : NodeKind → Scope → Rule} {a : Rule} (hba : Enters b a)

include hba

theorem shapeDefinition_yields {c : Cursor} {k : TokenKind} (h : c.current? = some k)
    (hk : startsSegment k = true) :
    Yields Derives c (shapeDefinition b c) (· = [.node .shapeDefinition]) ∧
      Shrinks c (shapeDefinition b c) :=
  definition_yields (.inl rfl) (.inl rfl) label_yields (body_yields hba _ _ rfl)
    (fun _ w hw ha => ⟨w, hw, ha⟩) h hk

theorem property_yields {c : Cursor} {k : TokenKind} (h : c.current? = some k)
    (hk : startsSegment k = true) :
    Yields Derives c (property b a c) (· = [.node .property]) ∧ Shrinks c (property b a c) :=
  definition_yields (.inr rfl) (.inr rfl) (value_yields hba) (body_yields hba _ _ rfl)
    (fun _ w hw ha => ⟨w, hw, ha⟩) h hk

theorem block_yields {kind : NodeKind} {scope : Scope} (hk : bodyScope? kind = some scope)
    {c : Cursor} (h : c.current? = some .leftBrace) :
    Yields Derives c (b kind scope c) (fun w => w = [.node kind] ∨ w = [.node .error]) :=
  (hba.braced kind scope c hk h).1

theorem endpoint_yields {c : Cursor} {k : TokenKind} (h : c.current? = some k)
    (hk : startsSegment k = true ∨ k = .leftBrace) :
    Yields Derives c (endpoint b c) (fun w => ∃ e, w = [.node e] ∧ isEndpoint e = true) := by
  unfold endpoint
  split
  · next hb =>
    apply yields_weaken (block_yields hba rfl hb)
    rintro w (rfl | rfl) <;> exact ⟨_, rfl, rfl⟩
  · next hb =>
    have hs : startsSegment k = true := hk.resolve_right (by rintro rfl; exact hb h)
    apply yields_weaken (path_yields (.inl rfl) h hs).1
    rintro w rfl
    exact ⟨_, rfl, rfl⟩

theorem target_yields (k : TokenKind) (c : Cursor) :
    Yields Derives c (target b k c) (fun w => ∃ e, w = [.node e] ∧ isEndpoint e = true) := by
  unfold target
  split
  · next h => exact endpoint_yields hba h (.inl rfl)
  · next h => exact endpoint_yields hba h (.inl rfl)
  · next h => exact endpoint_yields hba h (.inr rfl)
  · next h => exact yields_weaken (fault_yields h) (by rintro w rfl; exact ⟨_, rfl, rfl⟩)
  · exact yields_weaken (missing_yields _ c) (by rintro w rfl; exact ⟨_, rfl, rfl⟩)

end

theorem connector_plain {k : TokenKind} (hk : k.isConnector = true) :
    isBrace k = false ∧ k.isTrivia = false := by
  cases k <;> simp_all [TokenKind.isConnector, TokenKind.connector?, isBrace, TokenKind.isTrivia]

section

variable {b : NodeKind → Scope → Rule} {a : Rule} (hba : Enters b a)

include hba

theorem link_yields {c : Cursor} (h : connectorAhead c.tokens = true) :
    Yields Derives c (link b c) (fun w => ∃ k e, w = [.token k, .node e] ∧
        k.isConnector = true ∧ isEndpoint e = true) ∧ Shrinks c (link b c) := by
  obtain ⟨k, hp, hk⟩ := (Option.any_eq_true _ _).mp h
  have hcur : (trivia c).cursor.current? = some k := (trivia_current c).trans hp
  obtain ⟨hbump, hsh⟩ := bump_yields hcur (connector_plain hk).1 (connector_plain hk).2
  have htarget (c' : Cursor) : Yields Derives c' (seq [trivia, target b k] c')
      (fun w => ∃ e, w = [.node e] ∧ isEndpoint e = true) :=
    trivia_first (seq_last derives_chains _ (target_yields hba k _))
  have hrest : Yields Derives (trivia c).cursor
      (seq [bump, trivia, target b k] (trivia c).cursor)
      (fun w => ∃ k e, w = [.token k, .node e] ∧ k.isConnector = true ∧ isEndpoint e = true) :=
    seq_yields derives_chains _ _ hbump (htarget _)
      (by rintro u v rfl ⟨e, rfl, he⟩; exact ⟨k, e, rfl, hk, he⟩)
  have hlink : link b c = seq [trivia, bump, trivia, target b k] c := by
    unfold link
    rw [show c.peek? = some k from hp]
  rw [hlink]
  exact ⟨trivia_first hrest, shrinks_append_right derives_chains (trivia_yields c)
    (seq_shrinks derives_chains _ _ hsh (htarget _))⟩

theorem links_yields (c : Cursor) :
    Yields Derives c (many (·.peek?.any (·.isConnector)) (link b) c) Links ∧
      (connectorAhead c.tokens = true →
        signature (many (·.peek?.any (·.isConnector)) (link b) c).trees ≠ [] ∧
          Shrinks c (many (·.peek?.any (·.isConnector)) (link b) c)) := by
  have hall (c : Cursor) : Yields Derives c (many (·.peek?.any (·.isConnector)) (link b) c) Links :=
    (many_yields (I := fun _ => True) derives_chains _ _ Links.nil links_append (fun c _ h =>
      ⟨yields_weaken (link_yields hba h).1
         (by rintro w ⟨k, e, rfl, hk, he⟩; exact .cons hk he .nil),
        (link_yields hba h).2, trivial⟩) c trivial).1
  refine ⟨hall c, fun h => ?_⟩
  obtain ⟨hy, hsh⟩ := link_yields hba h
  obtain ⟨k, e, hw, -, -⟩ := hy.shape
  have hstep : many (·.peek?.any (·.isConnector)) (link b) c =
      (link b c).append (many (·.peek?.any (·.isConnector)) (link b) (link b c).cursor) := by
    rw [many, if_pos (show c.peek?.any (·.isConnector) = true from h)]
    exact if_pos hsh
  rw [hstep]
  refine ⟨?_, shrinks_append_left derives_chains hsh (hall _)⟩
  simp [Output.append, hw]

end

/-- Where the grammar reads a connection. -/
def Starts (c : Cursor) : Prop :=
  (∃ k, c.current? = some k ∧ k.isConnector = true) ∨
    (∃ k, c.current? = some k ∧ startsSegment k = true ∧
      connectorAhead (c.tokens.drop (pathLength c.tokens)) = true) ∨
    c.current? = some .leftBrace ∧ blockBeforeConnector? c = some true

/-- The first endpoint of a connection. Only a block can be followed by something else than the
connector that was looked for. -/
structure Source (c : Cursor) (o : Output) (x : Tree) (kind : NodeKind) : Prop where
  trees : o.trees = [x]
  kindOf : x.kind? = some kind
  endpoint : isEndpoint kind = true
  yields : Yields Derives c o (fun _ => True)
  advances : Shrinks c o ∨ connectorAhead o.cursor.tokens = true
  foreseen : kind = .inlineShapeDefinition → blockBeforeConnector? c = some true
  alone : connectorAhead o.cursor.tokens = false → kind = .inlineShapeDefinition

def joined (c : Cursor) (s l r : Output) : Output :=
  ⟨[.node .shapeConnection c.offset (s.append (l.append r)).trees],
    (s.append (l.append r)).diagnostics, r.cursor, (s.append (l.append r)).stuck⟩

theorem joined_yields {c : Cursor} {s l r : Output} {x : Tree} {kind : NodeKind}
    (hs : Source c s x kind) (hl : Yields Derives s.cursor l Links)
    (hr : Yields Derives l.cursor r (Annotated .labelDefinition .blockDefinition))
    (hn : connectorAhead s.cursor.tokens = true → signature l.trees ≠ []) :
    Yields Derives c (joined c s l r) (· = [.node .shapeConnection]) where
  runs := by simp [joined, Output.append, hs.yields.runs, hl.runs, hr.runs]
  stop := hr.stop.trans (hl.stop.trans hs.yields.stop)
  derives := by
    have hd := hs.yields.derives
    have hd' := hl.derives
    have hd'' := hr.derives
    rw [hl.stop, hs.yields.stop] at hd''
    rw [hs.yields.stop] at hd'
    rw [hs.trees] at hd
    simp only [joined, Output.append, hs.trees, List.singleton_append]
    refine .connection hd hd' hd'' hs.kindOf hs.endpoint hl.shape hr.shape hs.foreseen
      fun hnil => ?_
    have hno : connectorAhead s.cursor.tokens = false := by
      simpa using fun h => hn h hnil
    exact ⟨hs.alone hno, hno⟩
  shape := rfl

theorem joined_shrinks {c : Cursor} {s l r : Output} {x : Tree} {kind : NodeKind}
    {S : List Symbol → Prop} (hs : Source c s x kind) (hl : Yields Derives s.cursor l Links)
    (hr : Yields Derives l.cursor r S)
    (hn : connectorAhead s.cursor.tokens = true → Shrinks s.cursor l) :
    Shrinks c (joined c s l r) := by
  have h0 := yields_length derives_chains hs.yields
  have h1 := yields_length derives_chains hl
  have h2 := yields_length derives_chains hr
  rcases hs.advances with hsh | hc
  · simp only [Shrinks, joined] at *
    omega
  · have hsh := hn hc
    simp only [Shrinks, joined] at *
    omega

section

variable {b : NodeKind → Scope → Rule} {a : Rule} (hba : Enters b a)

include hba

theorem source_yields {c : Cursor} (h : Starts c) : ∃ x kind, Source c (source b c) x kind := by
  rcases h with ⟨k, hc, hk⟩ | ⟨k, hc, hk, ha⟩ | ⟨hc, hl⟩
  · have hs : source b c = missingEndpoint ("expected a shape before " ++ k.describe) c := by
      simp only [source, hc, hk, if_true]
    have hyes : connectorAhead c.tokens = true :=
      (Option.any_eq_true _ _).mpr ⟨k, peek_current c k hc (connector_plain hk).2, hk⟩
    rw [hs]
    exact ⟨_, .error, rfl, rfl, rfl, yields_weaken (missing_yields _ c) (fun _ _ => trivial),
      .inr hyes, by simp, fun hno => absurd (hyes.symm.trans hno) (by decide)⟩
  · have hkc : k.isConnector = false := by cases k <;> simp_all [startsSegment] <;> rfl
    have hkb : k ≠ .leftBrace := by rintro rfl; simp [startsSegment] at hk
    have hs : source b c = node .shapeId (take pathLength) c := by
      simp [source, hc, hkc, endpoint, hkb]
    obtain ⟨hy, hsh⟩ := path_yields (.inl rfl) hc hk
    rw [hs]
    exact ⟨_, .shapeId, rfl, rfl, rfl, yields_weaken hy (fun _ _ => trivial), .inl hsh,
      by simp, fun hno => absurd (ha.symm.trans hno) (by decide)⟩
  · have hs : source b c = b .inlineShapeDefinition .shape c := by
      simp [source, hc, endpoint, TokenKind.isConnector, TokenKind.connector?]
    rw [hs]
    obtain ⟨hy, hsh, x, hx, hkind⟩ := hba.braced .inlineShapeDefinition .shape c rfl hc
    have hy' := yields_weaken (T := fun _ => True) hy (fun _ _ => trivial)
    rcases hkind with hkind | ⟨hkind, n, hn, hcur⟩
    · exact ⟨x, _, hx, hkind, rfl, hy', .inl hsh, fun _ => hl, fun _ => rfl⟩
    · refine ⟨x, _, hx, hkind, rfl, hy', .inl hsh, by simp, fun hno => ?_⟩
      have hyes : connectorAhead (c.tokens.drop n) = true := by
        rw [blockBeforeConnector?, hn] at hl
        exact Option.some.inj hl
      rw [hcur] at hno
      exact absurd (hyes.symm.trans hno) (by decide)

theorem connection_yields {c : Cursor} (h : Starts c) :
    Yields Derives c (connection b c) (· = [.node .shapeConnection]) ∧
      Shrinks c (connection b c) := by
  obtain ⟨x, kind, hs⟩ := source_yields hba h
  obtain ⟨hl, hlink⟩ := links_yields hba (source b c).cursor
  have hr (c' : Cursor) : Yields Derives c' (seq [label, body (b .blockDefinition .block)] c')
      (Annotated .labelDefinition .blockDefinition) :=
    seq_yields derives_chains _ _ (label_yields c')
      (seq_last derives_chains _ (body_yields hba _ _ rfl _))
      (fun u v hu hv => ⟨u, v, rfl, hu, hv⟩)
  exact ⟨joined_yields hs hl (hr _) (fun hc => (hlink hc).1),
    joined_shrinks hs hl (hr _) (fun hc => (hlink hc).2)⟩

end

end DiagramText.Statements
