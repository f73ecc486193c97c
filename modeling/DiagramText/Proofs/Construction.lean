import DiagramText.Proofs.Complaints
import DiagramText.Proofs.Depth
import DiagramText.Proofs.Widths
import Mathlib.Data.List.Chain

/-!
# What the grammar builds

The grammar opens a node because of what it has measured ahead, and the node
keeps it: a path is the path that was measured, the path of a shape has no
reserved word and that of a property has one, unless a block of properties
surrounds it. A braced body is refused only where the nesting has no room left.
What is reported on the way is a complaint of the grammar. That is shown rule by
rule, and along the levels of nesting; what holds of all nodes or of all reports
follows by induction on what is built.
-/

set_option autoImplicit false

namespace DiagramText.Construction
open Rule Grammar Lookahead Complaints Production Reading Statements Nesting Depth Widths
  DiagramText.Tree

def pathTree (kind : NodeKind) (s : Nat) (ts : List Token) : Tree :=
  .node kind s ((ts.take (pathLength ts)).map .token)

def isConnectorSymbol : Symbol → Bool
  | .token k => k.isConnector
  | .node _ => false

/-- An error node comes first or behind a connector. -/
def Tidy (w : List Symbol) : Prop :=
  w.IsChain fun s t => t = .node .error → isConnectorSymbol s = true

/-- Where braces and brackets have room to nest, and statements stand in a scope, the grammar
builds such rows of trees and makes such reports with them. -/
inductive Built : Nat → Scope → List Tree → List Diagnostic → Prop where
  | nil {room : Nat} {scope : Scope} : Built room scope [] []
  | append {room : Nat} {scope : Scope} {xs ys : List Tree} {ds es : List Diagnostic}
      (first : Built room scope xs ds) (second : Built room scope ys es) :
      Built room scope (xs ++ ys) (ds ++ es)
  | report {room : Nat} {scope : Scope} {d : Diagnostic} (complaint : Complaint d) :
      Built room scope [] [d]
  | token {room : Nat} {scope : Scope} (t : Token) : Built room scope [.token t] []
  | held {room : Nat} {scope : Scope} {kind : NodeKind} {s : Nat} {xs : List Tree}
      {ds : List Diagnostic}
      (kinds : kind = .labelDefinition ∨ kind = .attributeValue ∨ kind = .error)
      (inside : Built room .shape xs ds) : Built room scope [.node kind s xs] ds
  | path {room : Nat} {scope : Scope} (s : Nat) (ts : List Token) :
      Built room scope [pathTree .shapeId s ts] []
  | array {room : Nat} {scope : Scope} {s : Nat} {xs : List Tree} {ds : List Diagnostic}
      (inside : Built room .shape xs ds) : Built (room + 1) scope [.node .array s xs] ds
  | block {room : Nat} {scope inner : Scope} {kind : NodeKind} {s : Nat} {xs : List Tree}
      {ds : List Diagnostic} (body : bodyScope? kind = some inner)
      (inside : Built room inner xs ds) : Built (room + 1) scope [.node kind s xs] ds
  | shape {room : Nat} {scope : Scope} {s s' : Nat} {ts : List Token} {rest : List Tree}
      {ds : List Diagnostic} (free : (Lookahead.path ts).hasKeyword = false)
      (rest_built : Built room .shape rest ds) :
      Built room scope [.node .shapeDefinition s (pathTree .shapeId s' ts :: rest)] ds
  | property {room : Nat} {scope : Scope} {s s' : Nat} {ts : List Token} {rest : List Tree}
      {ds : List Diagnostic} (reserved : scope = .block ∨ (Lookahead.path ts).hasKeyword = true)
      (rest_built : Built room .shape rest ds) :
      Built room scope [.node .property s (pathTree .propertyKey s' ts :: rest)] ds
  | connection {room : Nat} {scope : Scope} {s : Nat} {xs : List Tree} {ds : List Diagnostic}
      (parts : Built room .shape xs ds) (tidy : room ≠ 0 → Tidy (signature xs)) :
      Built room scope [.node .shapeConnection s xs] ds

/-- Wherever the rule starts, it builds such a row. -/
def Makes (room : Nat) (scope : Scope) (p : Rule) : Prop :=
  ∀ c, Built room scope (p c).trees (p c).diagnostics

section

variable {room : Nat} {scope : Scope} {p : Rule}

theorem built_tokens (ts : List Token) : Built room scope (ts.map .token) [] := by
  induction ts with
  | nil => exact .nil
  | cons t ts ih => exact .append (.token t) ih

theorem makes_skip : Makes room scope skip := fun _ => .nil

theorem makes_halt : Makes room scope halt := fun _ => .nil

theorem makes_take (length : List Token → Nat) : Makes room scope (take length) := fun _ =>
  built_tokens _

theorem makes_counted (length? : List Token → Option Nat) :
    Makes room scope (takeCounted length?) := by
  intro c
  unfold takeCounted
  split
  · exact makes_take _ c
  · exact makes_halt c

theorem makes_report {d : Cursor → Diagnostic} (h : ∀ c, Complaint (d c)) :
    Makes room scope (report d) := fun c => .report (h c)

theorem makes_cons {ps : List Rule} (hp : Makes room scope p) (hps : Makes room scope (seq ps)) :
    Makes room scope (seq (p :: ps)) := fun c => .append (hp c) (hps _)

theorem makes_one (hp : Makes room scope p) : Makes room scope (seq [p]) := makes_cons hp makes_skip

theorem makes_whenNext (test : TokenKind → Bool) (h : Makes room scope p) :
    Makes room scope (whenNext test p) := by
  intro c
  unfold whenNext
  split
  · exact h c
  · exact makes_skip c

theorem makes_many (test : Cursor → Bool) (h : Makes room scope p) :
    Makes room scope (many test p) := by
  intro c
  fun_induction many test p c with
  | case1 c _ a _ ih => exact .append (h c) ih
  | case2 c _ a _ => exact h c
  | case3 c _ => exact makes_skip c

theorem makes_held {kind : NodeKind}
    (kinds : kind = .labelDefinition ∨ kind = .attributeValue ∨ kind = .error)
    (h : Makes room .shape p) : Makes room scope (node kind p) := fun c => .held kinds (h c)

theorem makes_error (h : Makes room .shape p) : Makes room scope (node .error p) :=
  makes_held (.inr (.inr rfl)) h

theorem makes_trivia : Makes room scope trivia := makes_take _

theorem makes_bump : Makes room scope bump := makes_take _

theorem makes_discard : Makes room scope discard := makes_error (makes_counted _)

theorem makes_recover : Makes room scope recover :=
  makes_cons (makes_report unexpected_complaint) (makes_one makes_discard)

theorem makes_stray : Makes room scope strayBrace :=
  makes_cons (makes_report fun _ => ⟨rfl, _, rfl, .unexpected .rightBrace⟩)
    (makes_one (makes_error makes_bump))

theorem makes_deep (opening closing : TokenKind) : Makes room scope (tooDeep opening closing) :=
  makes_cons (makes_report fun _ => ⟨rfl, _, rfl, .deep⟩)
    (makes_one (makes_error (makes_counted _)))

theorem makes_missing {message : String} (h : Wording .missingEndpoint message) :
    Makes room scope (missingEndpoint message) :=
  makes_cons (makes_report fun _ => ⟨rfl, _, rfl, h⟩) (makes_one (makes_error makes_skip))

theorem makes_terminated : Makes room scope terminated := by
  intro c
  unfold terminated
  split
  · exact makes_skip c
  · split
    · exact makes_skip c
    · split
      · exact makes_cons makes_trivia (makes_one makes_discard) c
      · exact makes_cons makes_trivia (makes_one makes_recover) c

theorem makes_text {kind : NodeKind} (kinds : kind = .labelDefinition ∨ kind = .attributeValue) :
    Makes room scope (whenNext startsText (seq [trivia, node kind (take textLength)])) :=
  makes_whenNext _ (makes_cons makes_trivia
    (makes_one (makes_held (kinds.imp_right .inl) (makes_take _))))

theorem makes_label : Makes room scope Grammar.label :=
  makes_whenNext _ (makes_cons makes_trivia (makes_cons makes_bump
    (makes_one (makes_text (.inl rfl)))))

theorem makes_value {a : Rule} (h : Makes room .shape a) : Makes room scope (value a) := by
  apply makes_whenNext
  apply makes_cons makes_trivia
  apply makes_cons makes_bump
  apply makes_one
  intro c
  dsimp only
  split
  · exact makes_cons makes_trivia (makes_one (makes_held (.inr (.inl rfl)) h)) c
  · exact makes_text (.inr rfl) c

theorem makes_body {b : Rule} (h : Makes room scope b) : Makes room scope (body b) :=
  makes_whenNext _ (makes_cons makes_trivia (makes_one h))

theorem makes_element {nested : Rule} (h : Makes room .shape nested) :
    Makes room scope (element nested) := by
  intro c
  unfold element
  split
  · exact makes_bump c
  · split
    · exact makes_held (.inr (.inl rfl)) h c
    · exact makes_held (.inr (.inl rfl)) (makes_take _) c

theorem makes_close (k : TokenKind) {d : Cursor → Diagnostic} (h : ∀ c, Complaint (d c)) :
    Makes room scope fun c => if c.current? = some k then bump c else report d c := by
  intro c
  dsimp only
  split
  · exact makes_bump c
  · exact makes_report h c

end

/-- The children of a connection. -/
def parts (braced : NodeKind → Scope → Rule) : Rule :=
  seq [source braced, many (·.peek?.any (·.isConnector)) (link braced), label,
    body (braced .blockDefinition .block)]

/-- What the rules one level down build. -/
structure Nested (room : Nat) (b : NodeKind → Scope → Rule) (a : Rule) : Prop where
  block : ∀ {kind inner} scope, bodyScope? kind = some inner → Makes room scope (b kind inner)
  array : Makes room .shape a
  tidy : ∀ c, room ≠ 0 → Tidy (signature (parts b c).trees)

section

variable {room : Nat} {scope : Scope} {b : NodeKind → Scope → Rule} {a : Rule}
  (h : Nested room b a)

include h

theorem shape_built (c : Cursor) (free : (Lookahead.path c.tokens).hasKeyword = false) :
    Built room scope (shapeDefinition b c).trees (shapeDefinition b c).diagnostics :=
  .shape free (makes_cons makes_label (makes_one (makes_body (h.block _ rfl))) _)

theorem property_built (c : Cursor)
    (reserved : scope = .block ∨ (Lookahead.path c.tokens).hasKeyword = true) :
    Built room scope (property b a c).trees (property b a c).diagnostics :=
  .property reserved
    (makes_cons (makes_value h.array) (makes_one (makes_body (h.block _ rfl))) _)

theorem makes_endpoint : Makes room scope (endpoint b) := by
  intro c
  unfold endpoint
  split
  · exact h.block _ rfl c
  · exact .path c.offset c.tokens

theorem makes_source : Makes room scope (source b) := by
  intro c
  unfold source
  split
  · split
    · exact makes_missing (.before _) c
    · exact makes_endpoint h c
  · exact makes_endpoint h c

theorem makes_target (connector : TokenKind) : Makes room scope (target b connector) := by
  intro c
  unfold target
  split
  · exact makes_endpoint h c
  · exact makes_endpoint h c
  · exact makes_endpoint h c
  · exact makes_error makes_bump c
  · exact makes_missing (.after _) c

theorem makes_link : Makes room scope (link b) := by
  intro c
  unfold link
  split
  · exact makes_cons makes_trivia (makes_cons makes_bump
      (makes_cons makes_trivia (makes_one (makes_target h _)))) c
  · exact makes_skip c

theorem makes_connection : Makes room scope (connection b) := fun c =>
  .connection (makes_cons (makes_source h) (makes_cons (makes_many _ (makes_link h))
    (makes_cons makes_label (makes_one (makes_body (h.block _ rfl))))) c) (h.tidy c)

theorem makes_bareBlock (inner : Scope) : Makes room scope (bareBlock b inner) := by
  cases inner with
  | document =>
    exact makes_cons (makes_report fun _ => ⟨rfl, _, rfl, .anonymous⟩) (makes_one (h.block _ rfl))
  | shape => exact h.block _ rfl
  | block => exact makes_recover

theorem makes_named : Makes room scope (named b a scope) := by
  intro c
  unfold named
  dsimp only
  split
  · exact makes_connection h c
  · split
    · next reserved => exact property_built h c reserved.symm
    · next free => exact shape_built h c (by simpa using fun hk => free (.inl hk))

theorem makes_statement : Makes room scope (statement b a scope) := by
  intro c
  unfold statement
  split
  · split
    · exact makes_connection h c
    · exact makes_bareBlock h scope c
    · exact makes_halt c
  · exact makes_named h c
  · exact makes_named h c
  · exact makes_discard c
  · split
    · exact makes_connection h c
    · exact makes_recover c
  · exact makes_skip c

theorem makes_item : Makes room scope (item b a scope) := by
  intro c
  unfold item
  split
  · exact makes_bump c
  · exact makes_bump c
  · exact makes_stray c
  · exact makes_cons (makes_statement h) (makes_one makes_terminated) c

theorem makes_statements : Makes room scope (statements b a scope) :=
  makes_cons makes_trivia (makes_one (makes_many _
    (makes_cons (makes_item h) (makes_one makes_trivia))))

end

theorem tidy_clean {w : List Symbol} (h : ∀ s ∈ w, s ≠ .node .error) : Tidy w := by
  induction w with
  | nil => exact .nil
  | cons s w ih =>
    obtain ⟨-, hw⟩ := List.forall_mem_cons.mp h
    exact List.isChain_cons.mpr
      ⟨fun t ht he => absurd he (hw t (List.mem_of_mem_head? ht)), ih hw⟩

/-- Links in front of a row without an error node; no error node comes first. -/
theorem tidy_links {u w : List Symbol} (hu : Links u) (hw : ∀ s ∈ w, s ≠ .node .error) :
    Tidy (u ++ w) ∧ ∀ s ∈ (u ++ w).head?, s ≠ .node .error := by
  induction hu with
  | nil => exact ⟨tidy_clean hw, fun s hs => hw s (List.mem_of_mem_head? hs)⟩
  | @cons k e u hk he rest ih =>
    obtain ⟨htidy, hhead⟩ := ih
    refine ⟨.cons_cons (fun _ => hk) (List.isChain_cons.mpr ⟨?_, htidy⟩), by simp⟩
    exact fun t ht he => absurd he (hhead t ht)

theorem braced_signature (n : Nat) (kind : NodeKind) (inner : Scope) (c : Cursor) :
    signature (braced (n + 1) kind inner c).trees = [.node kind] := rfl

theorem connection_tidy (n : Nat) (c : Cursor) :
    Tidy (signature (parts (braced (n + 1)) c).trees) := by
  have hsource : ∃ e, signature (source (braced (n + 1)) c).trees = [.node e] := by
    unfold source endpoint
    split
    · split
      · exact ⟨_, rfl⟩
      · split <;> exact ⟨_, rfl⟩
    · split <;> exact ⟨_, rfl⟩
  have hbody (c : Cursor) : ∀ s ∈ signature
      (body (braced (n + 1) .blockDefinition .block) c).trees, s ≠ .node .error := by
    have htrivia := (trivia_yields c).shape
    intro s hs
    unfold body whenNext at hs
    split at hs
    · obtain rfl : s = .node .blockDefinition := by
        simpa [seq, andThen, Output.append, skip, htrivia, braced_signature] using hs
      simp
    · simp [skip] at hs
  have hlabel (c : Cursor) : ∀ s ∈ signature (label c).trees, s ≠ .node .error := by
    have hl := (label_yields c).shape
    generalize signature (label c).trees = w at hl ⊢
    cases hl <;> simp
  obtain ⟨e, he⟩ := hsource
  have hlinks := (links_yields (braced_enters (n + 1)) (source (braced (n + 1)) c).cursor).1.shape
  simp only [parts, seq, andThen, Output.append, skip, List.append_nil, signature_append, he]
  obtain ⟨htidy, hhead⟩ := tidy_links hlinks
    (List.forall_mem_append.mpr ⟨hlabel _, hbody _⟩)
  exact List.isChain_cons.mpr ⟨fun t ht he => absurd he (hhead t ht), htidy⟩

theorem levels_nested (room : Nat) : Nested room (braced room) (array room) := by
  induction room with
  | zero => exact ⟨fun _ _ => makes_deep _ _, makes_deep _ _, fun _ h => absurd rfl h⟩
  | succ room ih =>
    refine ⟨fun scope hbody c => ?_, fun c => ?_, fun c _ => connection_tidy room c⟩
    · exact .block hbody (makes_cons makes_bump
        (makes_cons (makes_statements ih)
          (makes_one (makes_close _ fun _ => ⟨rfl, _, rfl, .block⟩))) c)
    · exact .array (makes_cons makes_bump (makes_cons makes_trivia
        (makes_cons (makes_many _ (makes_cons (makes_element ih.array) (makes_one makes_trivia)))
          (makes_one (makes_close _ fun _ => ⟨rfl, _, rfl, .array⟩)))) c)

theorem document_built (c : Cursor) :
    Built maxNesting .document (document c).trees (document c).diagnostics :=
  makes_statements (levels_nested maxNesting) c

theorem built_complaints {room : Nat} {scope : Scope} {xs : List Tree} {ds : List Diagnostic}
    (h : Built room scope xs ds) : ∀ d ∈ ds, Complaint d := by
  induction h with
  | nil | token | path => simp
  | append _ _ ih ih' => exact List.forall_mem_append.mpr ⟨ih, ih'⟩
  | report complaint => exact List.forall_mem_singleton.mpr complaint
  | held _ _ ih | array _ ih | block _ _ ih | shape _ _ ih | property _ _ ih
  | connection _ _ ih => exact ih

theorem document_complaints (c : Cursor) : ∀ d ∈ (document c).diagnostics, Complaint d :=
  built_complaints (document_built c)

theorem forall_places_append {P : Place → Prop} {above xs ys : List Tree} :
    (∀ p ∈ placesUnderAll above (xs ++ ys), P p) ↔
      (∀ p ∈ placesUnderAll above xs, P p) ∧ ∀ p ∈ placesUnderAll above ys, P p := by
  induction xs with
  | nil => simp [placesUnderAll]
  | cons x xs ih => simp [placesUnderAll, or_imp, forall_and, ih, and_assoc]

theorem forall_places_node {P : Place → Prop} {above xs : List Tree} {k : NodeKind} {s : Nat} :
    (∀ p ∈ placesUnderAll above [.node k s xs], P p) ↔
      P ⟨.node k s xs, above⟩ ∧ ∀ p ∈ placesUnderAll (.node k s xs :: above) xs, P p := by
  simp [placesUnderAll, placesUnder]

theorem places_tokens (above : List Tree) (ts : List Token) :
    placesUnderAll above (ts.map .token) = [] := by
  induction ts with
  | nil => rfl
  | cons t ts ih => simpa [placesUnderAll, placesUnder] using ih

/-- What a node keeps of what was decided when it was opened. -/
structure Admitted (p : Place) : Prop where
  path : p.node.kind?.any isPath = true → Derivation.Measured p.node.tokens
  shape : p.node.kind? = some .shapeDefinition →
    ∃ s ts rest, p.node.elements = pathTree .shapeId s ts :: rest ∧
      (Lookahead.path ts).hasKeyword = false
  property : p.node.kind? = some .property → p.parent?.any (isKind .blockDefinition) = false →
    ∃ s ts rest, p.node.elements = pathTree .propertyKey s ts :: rest ∧
      (Lookahead.path ts).hasKeyword = true
  connection : p.node.kind? = some .shapeConnection → ¬Tidy (signature p.node.elements) →
    groups p.above = maxNesting

theorem admitted_other {k : NodeKind} {s : Nat} {xs above : List Tree} (hpath : isPath k = false)
    (hstatement : k ≠ .shapeDefinition ∧ k ≠ .property ∧ k ≠ .shapeConnection) :
    Admitted ⟨.node k s xs, above⟩ := by
  obtain ⟨hshape, hproperty, hconnection⟩ := hstatement
  constructor <;> simp [kind?, hpath, hshape, hproperty, hconnection]

theorem path_admitted {k : NodeKind} (hk : isPath k = true) (s : Nat) (ts : List Token)
    (above : List Tree) : ∀ p ∈ placesUnderAll above [pathTree k s ts], Admitted p := by
  refine forall_places_node.mpr ⟨?_, by rw [places_tokens]; simp⟩
  have hother : k ≠ .shapeDefinition ∧ k ≠ .property ∧ k ≠ .shapeConnection := by
    refine ⟨?_, ?_, ?_⟩ <;> rintro rfl <;> simp [isPath] at hk
  refine ⟨fun _ => ⟨ts, tokensAll_map_token _⟩, ?_, ?_, ?_⟩ <;> simp [kind?, hother]

/-- The groups above a place and the room that is left make up the limit. -/
theorem built_admitted {room : Nat} {scope : Scope} {xs : List Tree} {ds : List Diagnostic}
    (h : Built room scope xs ds) :
    ∀ above, groups above + room = maxNesting →
      (scope = .block → above.head?.any (isKind .blockDefinition) = true) →
      ∀ p ∈ placesUnderAll above xs, Admitted p := by
  induction h with
  | nil => simp [placesUnderAll]
  | append _ _ ih ih' =>
    intro above hroom hscope
    exact forall_places_append.mpr ⟨ih above hroom hscope, ih' above hroom hscope⟩
  | report => simp [placesUnderAll]
  | token t => simp [placesUnderAll, placesUnder]
  | held kinds _ ih =>
    intro above hroom _
    refine forall_places_node.mpr ⟨?_, ih _ ?_ (by simp)⟩
    · rcases kinds with rfl | rfl | rfl <;> exact admitted_other rfl (by simp)
    · rcases kinds with rfl | rfl | rfl <;> exact hroom
  | path s ts => exact fun above _ _ => path_admitted rfl s ts above
  | array _ ih =>
    intro above hroom _
    refine forall_places_node.mpr ⟨admitted_other rfl (by simp), ih _ ?_ (by simp)⟩
    rw [groups_node, ← hroom]
    exact Nat.add_right_comm _ _ _
  | @block room scope inner kind s xs ds body _ ih =>
    intro above hroom _
    refine forall_places_node.mpr ⟨admitted_other (body_named body) ?_, ih _ ?_ ?_⟩
    · refine ⟨?_, ?_, ?_⟩ <;> rintro rfl <;> simp [bodyScope?] at body
    · have hgroup : (isGroup kind).toNat = 1 := by
        cases kind <;> simp [bodyScope?] at body <;> rfl
      rw [groups_node, hgroup]
      omega
    · rintro rfl
      cases kind <;> simp [bodyScope?] at body
      rfl
  | @shape room scope s s' ts rest ds free _ ih =>
    intro above hroom _
    refine forall_places_node.mpr ⟨?_, ?_⟩
    · refine ⟨by simp [kind?, isPath], fun _ => ⟨s', ts, rest, rfl, free⟩, ?_, ?_⟩ <;> simp [kind?]
    · exact (@forall_places_append _ _ [_] _).mpr
        ⟨path_admitted rfl s' ts _, ih _ hroom (by simp)⟩
  | @property room scope s s' ts rest ds reserved _ ih =>
    intro above hroom hscope
    refine forall_places_node.mpr ⟨?_, ?_⟩
    · refine ⟨by simp [kind?, isPath], by simp [kind?], fun _ hparent => ?_, by simp [kind?]⟩
      refine ⟨s', ts, rest, rfl, reserved.resolve_left fun hblock => ?_⟩
      exact absurd (hscope hblock) (by simpa [Place.parent?] using hparent)
    · exact (@forall_places_append _ _ [_] _).mpr
        ⟨path_admitted rfl s' ts _, ih _ hroom (by simp)⟩
  | @connection room scope s xs ds _ tidy ih =>
    intro above hroom _
    refine forall_places_node.mpr ⟨?_, ih _ hroom (by simp)⟩
    refine ⟨by simp [kind?, isPath], by simp [kind?], by simp [kind?], fun _ hrefused => ?_⟩
    have hzero : room = 0 := by
      by_contra hne
      exact hrefused (tidy hne)
    subst hzero
    exact hroom

theorem parse_admitted (text : String) : ∀ p ∈ (parse text).tree.places, Admitted p := by
  have hbuilt := document_built ⟨(tokenize text).1, text.utf8ByteSize⟩
  intro p hp
  rcases List.mem_cons.mp hp with rfl | hp
  · exact admitted_other rfl (by simp)
  · exact built_admitted hbuilt _ rfl (by simp) p hp

end DiagramText.Construction
