import DiagramText.Proofs.Braces
import DiagramText.Proofs.Production

/-!
# Derivations

A derivation says how a row of trees and its diagnostics come from the tokens
ahead, and which tokens are left: one case for each thing the grammar can do,
with what it knows when it does it. Every invariant of finished trees is
proved by induction on derivations, without a look at the grammar's rules.
-/

set_option autoImplicit false

namespace DiagramText.Derivation
open Measures Braces Production

def offsetAt (size : Nat) (ts : List Token) : Nat := Cursor.offset ⟨ts, size⟩

def connectorAhead (ts : List Token) : Bool :=
  (Cursor.peek? ⟨ts, 0⟩).any (·.isConnector)

def Measured (us : List Token) : Prop :=
  ∃ ts : List Token, us = ts.take (Lookahead.pathLength ts)

def Leaf (kind : NodeKind) (us : List Token) : Prop :=
  (kind = .shapeId ∨ kind = .propertyKey ∨ kind = .labelDefinition) ∧
      (∀ t ∈ us, isBrace t.kind = false) ∧ (kind ≠ .labelDefinition → Measured us) ∨
    kind = .attributeValue ∧ ∀ t ∈ us, t.kind ≠ .rightBrace

def Shut (us ts : List Token) : Prop :=
  (∃ t ∈ us.getLast?, t.isTrivia = false) ∨ ∀ t ∈ ts.head?, t.kind ≠ .newline

def Trimmed (kind : NodeKind) (us ts : List Token) : Prop :=
  (kind = .labelDefinition ∨ kind = .attributeValue → Shut us ts) ∧
    (kind = .labelDefinition → ∀ t ∈ us, Lookahead.stopsText t = false)

/-- From the first tokens the trees are built with the diagnostics, and the last tokens are left.
This covers everything except what stands directly in the document. -/
inductive Derives (size : Nat) : List Token → List Tree → List Diagnostic → List Token → Prop where
  | nil (ts : List Token) : Derives size ts [] [] ts
  | append {ts us vs : List Token} {xs ys : List Tree} {ds es : List Diagnostic}
      (first : Derives size ts xs ds us) (second : Derives size us ys es vs) :
      Derives size ts (xs ++ ys) (ds ++ es) vs
  | token (t : Token) (ts : List Token) (plain : isBrace t.kind = false) :
      Derives size (t :: ts) [.token t] [] ts
  | leaf (kind : NodeKind) (t : Token) (us ts : List Token) (tokens : Leaf kind (t :: us))
      (trimmed : Trimmed kind (t :: us) ts) :
      Derives size (t :: us ++ ts) [.node kind t.start ((t :: us).map .token)] [] ts
  | silent (t : Token) (us ts : List Token) (error : t.kind = .error)
      (level : Level (t :: us) ts) :
      Derives size (t :: us ++ ts) [.node .error t.start ((t :: us).map .token)] [] ts
  | rejected (t : Token) (us ts : List Token) (d : Diagnostic) (fresh : t.kind ≠ .error)
      (code : d.code = some .unexpectedToken ∨ d.code = some .nestingTooDeep)
      (span : d.span? = some t.span) (level : Level (t :: us) ts) (single : d.labels.length = 1) :
      Derives size (t :: us ++ ts) [.node .error t.start ((t :: us).map .token)] [d] ts
  | missing (ts : List Token) (d : Diagnostic) (code : d.code = some .missingEndpoint)
      (span : d.span? = some (.empty (offsetAt size ts))) (single : d.labels.length = 1) :
      Derives size ts [.node .error (offsetAt size ts) []] [d] ts
  | deepValue (t : Token) (us ts : List Token) (d : Diagnostic) (bracket : t.kind = .leftBracket)
      (code : d.code = some .nestingTooDeep) (span : d.span? = some t.span)
      (single : d.labels.length = 1) (shut : Shut (t :: us) ts) :
      Derives size (t :: us ++ ts)
        [.node .attributeValue t.start [.node .error t.start ((t :: us).map .token)]] [d] ts
  | arrayValue {ts us : List Token} {x : Tree} {ds : List Diagnostic}
      (array : Derives size ts [x] ds us) (kind : x.isKind .array = true)
      (shut : Shut x.tokens us) :
      Derives size ts [.node .attributeValue (offsetAt size ts) [x]] ds us
  | closedArray {t u : Token} {ts us : List Token} {xs : List Tree} {ds : List Diagnostic}
      (bracket : t.kind = .leftBracket) (inside : Derives size ts xs ds (u :: us))
      (elements : Elements (signature xs)) (close : u.kind = .rightBracket) :
      Derives size (t :: ts) [.node .array t.start (.token t :: (xs ++ [.token u]))] ds us
  | openArray {t : Token} {ts us : List Token} {xs : List Tree} {ds : List Diagnostic}
      (bracket : t.kind = .leftBracket) (inside : Derives size ts xs ds us)
      (elements : Elements (signature xs)) :
      Derives size (t :: ts) [.node .array t.start (.token t :: xs)]
        (ds ++ [Grammar.unclosedArray t.span ⟨us, size⟩]) us
  | closedBlock {kind : NodeKind} {scope : Grammar.Scope} {t u : Token} {ts us : List Token}
      {xs : List Tree} {ds : List Diagnostic} (body : bodyScope? kind = some scope)
      (brace : t.kind = .leftBrace) (inside : Derives size ts xs ds (u :: us))
      (items : Items scope (signature xs)) (close : u.kind = .rightBrace) :
      Derives size (t :: ts) [.node kind t.start (.token t :: (xs ++ [.token u]))] ds us
  | openBlock {kind : NodeKind} {scope : Grammar.Scope} {t : Token} {ts : List Token}
      {xs : List Tree} {ds : List Diagnostic} (body : bodyScope? kind = some scope)
      (brace : t.kind = .leftBrace) (inside : Derives size ts xs ds [])
      (items : Items scope (signature xs)) :
      Derives size (t :: ts) [.node kind t.start (.token t :: xs)]
        (ds ++ [Grammar.unclosedBlock t.span ⟨[], size⟩]) []
  | definition {kind : NodeKind} {ts us : List Token} {xs : List Tree} {ds : List Diagnostic}
      (kinds : kind = .shapeDefinition ∨ kind = .property) (parts : Derives size ts xs ds us)
      (conforms : Conforms kind xs) :
      Derives size ts [.node kind (offsetAt size ts) xs] ds us
  | connection {ts us vs ws : List Token} {kind : NodeKind} {source : Tree}
      {links rest : List Tree} {ds es fs : List Diagnostic}
      (first : Derives size ts [source] ds us) (chain : Derives size us links es vs)
      (last : Derives size vs rest fs ws) (sourceKind : source.kind? = some kind)
      (endpoint : isEndpoint kind = true) (linked : Links (signature links))
      (annotated : Annotated .labelDefinition .blockDefinition (signature rest))
      (foreseen : kind = .inlineShapeDefinition →
        Lookahead.blockBeforeConnector? ⟨ts, size⟩ = some true)
      (alone : signature links = [] →
        kind = .inlineShapeDefinition ∧ connectorAhead us = false) :
      Derives size ts [.node .shapeConnection (offsetAt size ts) (source :: (links ++ rest))]
        (ds ++ (es ++ fs)) ws

/-- What stands directly in the document: closing braces that close nothing, blocks without an
owner, and everything else that has a derivation. -/
inductive Outermost (size : Nat) :
    List Token → List Tree → List Diagnostic → List Token → Prop where
  | piece {ts us : List Token} {xs : List Tree} {ds : List Diagnostic}
      (derives : Derives size ts xs ds us) (items : Items .document (signature xs))
      (owned : ∀ x ∈ xs, x.isKind .subShapeDefinition = false) : Outermost size ts xs ds us
  | append {ts us vs : List Token} {xs ys : List Tree} {ds es : List Diagnostic}
      (first : Outermost size ts xs ds us) (second : Outermost size us ys es vs) :
      Outermost size ts (xs ++ ys) (ds ++ es) vs
  | stray (t : Token) (ts : List Token) (d : Diagnostic) (brace : t.kind = .rightBrace)
      (code : d.code = some .unexpectedToken) (span : d.span? = some t.span)
      (single : d.labels.length = 1) :
      Outermost size (t :: ts) [.node .error t.start [.token t]] [d] ts
  | anonymous {ts us : List Token} {x : Tree} {ds : List Diagnostic} (d : Diagnostic)
      (block : Derives size ts [x] ds us) (kind : x.isKind .subShapeDefinition = true)
      (code : d.code = some .anonymousBlock) (span : d.span? = (ts.head?.map (·.span)))
      (single : d.labels.length = 1) :
      Outermost size ts [x] (d :: ds) us

theorem derives_tokens {size : Nat} {ts us : List Token} {xs : List Tree} {ds : List Diagnostic}
    (h : Derives size ts xs ds us) : ts = Tree.tokensAll xs ++ us := by
  induction h with
  | nil => rfl
  | append _ _ ih ih' => rw [ih, ih', Tree.tokensAll_append, List.append_assoc]
  | token | leaf | silent | rejected | missing | deepValue =>
    simp [Tree.tokensAll, Tree.tokens]
  | arrayValue _ _ _ ih | definition _ _ _ ih => simpa [Tree.tokensAll, Tree.tokens] using ih
  | closedArray _ _ _ _ ih | closedBlock _ _ _ _ _ ih =>
    simp [Tree.tokensAll, Tree.tokens, ih]
  | openArray _ _ _ ih | openBlock _ _ _ _ ih => simp [Tree.tokensAll, Tree.tokens, ih]
  | connection _ _ _ _ _ _ _ _ _ ih ih' ih'' =>
    rw [ih, ih', ih'']
    simp [Tree.tokensAll, Tree.tokens]

inductive Body (size : Nat) (us : List Token) (kind : NodeKind) : Tree → Prop where
  | closed {scope : Grammar.Scope} {t u : Token} {ts : List Token} {xs : List Tree}
      {ds : List Diagnostic} (brace : t.kind = .leftBrace)
      (inside : Derives size ts xs ds (u :: us)) (items : Items scope (signature xs))
      (close : u.kind = .rightBrace) :
      Body size us kind (.node kind t.start (.token t :: (xs ++ [.token u])))
  | unclosed {scope : Grammar.Scope} {t : Token} {ts : List Token} {xs : List Tree}
      {ds : List Diagnostic} (brace : t.kind = .leftBrace) (inside : Derives size ts xs ds [])
      (items : Items scope (signature xs)) (ends : us = []) :
      Body size us kind (.node kind t.start (.token t :: xs))

theorem block_body {size : Nat} {ts us : List Token} {xs : List Tree} {ds : List Diagnostic}
    {x : Tree} {kind : NodeKind} {scope : Grammar.Scope} (h : Derives size ts xs ds us)
    (hx : xs = [x]) (hk : x.kind? = some kind) (hs : bodyScope? kind = some scope) :
    Body size us kind x := by
  -- a node of any other constructor has another kind
  have other {k : NodeKind} {s : Nat} {cs : List Tree} (hn : [Tree.node k s cs] = [x])
      (hb : bodyScope? k = none) : Body size us kind x := by
    obtain rfl : Tree.node k s cs = x := by simpa using hn
    obtain rfl : k = kind := by simpa [Tree.kind?] using hk
    simp [hb] at hs
  induction h with
  | nil => simp at hx
  | @append ts us vs xs ys ds es first second ih ih' =>
    rcases List.append_eq_singleton_iff.mp hx with ⟨rfl, rfl⟩ | ⟨rfl, rfl⟩
    · exact ih' rfl other
    · obtain rfl : us = vs := derives_tokens second
      exact ih rfl other
  | token t ts =>
    obtain rfl : Tree.token t = x := by simpa using hx
    simp [Tree.kind?] at hk
  | leaf kind t us ts tokens =>
    rcases tokens with ⟨rfl | rfl | rfl, -⟩ | ⟨rfl, -⟩ <;> exact other hx rfl
  | silent | rejected | missing | deepValue | arrayValue | closedArray | openArray | connection =>
    exact other hx rfl
  | closedBlock body brace inside items close =>
    obtain rfl : Tree.node _ _ _ = x := by simpa using hx
    obtain rfl : _ = kind := by simpa [Tree.kind?] using hk
    exact .closed brace inside items close
  | openBlock body brace inside items =>
    obtain rfl : Tree.node _ _ _ = x := by simpa using hx
    obtain rfl : _ = kind := by simpa [Tree.kind?] using hk
    exact .unclosed brace inside items rfl
  | definition kinds =>
    rcases kinds with rfl | rfl <;> exact other hx rfl

theorem outermost_tokens {size : Nat} {ts us : List Token} {xs : List Tree}
    {ds : List Diagnostic} (h : Outermost size ts xs ds us) : ts = Tree.tokensAll xs ++ us := by
  induction h with
  | piece derives => exact derives_tokens derives
  | append _ _ ih ih' => rw [ih, ih', Tree.tokensAll_append, List.append_assoc]
  | stray => simp [Tree.tokensAll, Tree.tokens]
  | anonymous _ block => exact derives_tokens block

end DiagramText.Derivation
