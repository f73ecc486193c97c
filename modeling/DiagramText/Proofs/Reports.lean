import DiagramText.Proofs.Schema
import DiagramText.Tree.Value

/-!
# What is reported about a node

The grammar reports a node at most once, and whether it does can be seen on
the node: an error node unless the scanner has reported its first token, a
block or an array without its closing token. Along a derivation the reports
come in the order in which their nodes are finished. A block without an owner
is the one exception, which is reported before it is read.
-/

set_option autoImplicit false

namespace DiagramText.Reports
open Production Scanning DiagramText.Derivation Layout Schema DiagramText.Tree

def isRejected (n : Tree) : Bool :=
  n.isKind .error && !n.firstToken?.any (·.kind == .error)

def isOpenBlock (n : Tree) : Bool := (n.kind?.bind bodyScope?).isSome && !n.isClosedBlock

def isOpenArray (n : Tree) : Bool := n.isKind .array && !n.isClosedArray

/-- An empty error node stands for a missing endpoint; any other was not expected or is too deep,
and is reported at its first token. -/
def Rejects (n : Tree) (d : Diagnostic) : Prop :=
  match n.firstToken? with
  | none => d.code = some .missingEndpoint ∧ n.span = .empty n.start ∧ d.span? = some n.span
  | some t => (d.code = some .unexpectedToken ∨ d.code = some .nestingTooDeep) ∧
    d.span? = some t.span

/-- The primary label is empty and stands at the offset; the other is on the opening token. -/
def Points (opening : TokenKind) (offset : Nat) (n : Tree) (d : Diagnostic) : Prop :=
  ∃ t primary secondary, n.elements.head? = some (.token t) ∧ t.kind = opening ∧
    d.labels = [primary, secondary] ∧ primary.primary = true ∧ primary.span = .empty offset ∧
    secondary.primary = false ∧ secondary.span = t.span

/-- What the grammar has reported about a node when it finishes it. -/
inductive Remark (size : Nat) (n : Tree) : List Diagnostic → Prop where
  | nothing (accepted : isRejected n = false) (block : isOpenBlock n = false)
      (array : isOpenArray n = false) : Remark size n []
  | rejected (d : Diagnostic) (mark : isRejected n = true) (rejects : Rejects n d) :
      Remark size n [d]
  | openBlock (d : Diagnostic) (mark : isOpenBlock n = true)
      (code : d.code = some .unclosedBlock) (points : Points .leftBrace size n d) :
      Remark size n [d]
  | openArray (d : Diagnostic) (mark : isOpenArray n = true)
      (code : d.code = some .unexpectedEnd) (points : Points .leftBracket n.stop n d) :
      Remark size n [d]

inductive Remarks (size : Nat) : List Tree → List Diagnostic → Prop where
  | nil : Remarks size [] []
  | cons {n : Tree} {ns : List Tree} {es ds : List Diagnostic} (first : Remark size n es)
      (rest : Remarks size ns ds) : Remarks size (n :: ns) (es ++ ds)

/-- The nodes of a row in the order in which they are finished. -/
def finished : List Tree → List Tree
  | [] => []
  | .token _ :: xs => finished xs
  | .node k s cs :: xs => finished cs ++ .node k s cs :: finished xs

@[simp]
theorem finished_nil : finished [] = [] := by simp [finished]

@[simp]
theorem finished_token (t : Token) (xs : List Tree) :
    finished (.token t :: xs) = finished xs := by
  simp [finished]

@[simp]
theorem finished_node (k : NodeKind) (s : Nat) (cs xs : List Tree) :
    finished (.node k s cs :: xs) = finished cs ++ .node k s cs :: finished xs := by
  simp [finished]

@[simp]
theorem finished_append (xs ys : List Tree) :
    finished (xs ++ ys) = finished xs ++ finished ys := by
  induction xs with
  | nil => simp
  | cons x xs ih => cases x <;> simp [ih]

@[simp]
theorem finished_tokens (us : List Token) : finished (us.map .token) = [] := by
  induction us with
  | nil => simp
  | cons u us ih => simpa using ih

theorem finished_perm (xs : List Tree) : (finished xs).Perm (nodesAll xs) := by
  induction xs using forest_induction with
  | nil => simp [nodesAll]
  | token t xs ih => simpa [nodesAll, nodes] using ih
  | node k s cs xs ihc ih =>
    have h := (ihc.append ih).cons (Tree.node k s cs)
    simpa [nodesAll, nodes] using List.perm_middle.trans h

theorem remarks_append {size : Nat} {ns ms : List Tree} {ds es : List Diagnostic}
    (hn : Remarks size ns ds) (hm : Remarks size ms es) :
    Remarks size (ns ++ ms) (ds ++ es) := by
  induction hn with
  | nil => exact hm
  | cons first _ ih =>
    rw [List.append_assoc]
    exact .cons first ih

theorem remarks_node {size s : Nat} {kind : NodeKind} {xs : List Tree} {ds es : List Diagnostic}
    (hx : Remarks size (finished xs) ds) (hn : Remark size (.node kind s xs) es) :
    Remarks size (finished [.node kind s xs]) (ds ++ es) := by
  rw [finished_node, finished_nil]
  exact remarks_append hx (by simpa using Remarks.cons hn .nil)

theorem plain_remark {size s : Nat} {kind : NodeKind} {xs : List Tree} (he : kind ≠ .error)
    (ha : kind ≠ .array) (hb : bodyScope? kind = none) : Remark size (.node kind s xs) [] :=
  .nothing (by simp [isRejected, isKind, kind?, he]) (by simp [isOpenBlock, kind?, hb])
    (by simp [isOpenArray, isKind, kind?, ha])

theorem remarks_plain {size s : Nat} {kind : NodeKind} {xs : List Tree} {ds : List Diagnostic}
    (hx : Remarks size (finished xs) ds) (he : kind ≠ .error) (ha : kind ≠ .array)
    (hb : bodyScope? kind = none) : Remarks size (finished [.node kind s xs]) ds := by
  have h := remarks_node (s := s) hx (plain_remark he ha hb)
  rwa [List.append_nil] at h

theorem remarks_leaf {size s : Nat} {kind : NodeKind} {us : List Token} {es : List Diagnostic}
    (hn : Remark size (.node kind s (us.map .token)) es) :
    Remarks size (finished [.node kind s (us.map .token)]) es := by
  have hx : Remarks size (finished (us.map .token)) [] := by
    rw [finished_tokens]
    exact .nil
  exact remarks_node hx hn

theorem first_token (kind : NodeKind) (s : Nat) (t : Token) (us : List Token) :
    firstToken? (.node kind s ((t :: us).map .token)) = some t := by
  simp [firstToken?, tokens, tokensAll]

theorem elements_plain {xs : List Tree} (h : Elements (signature xs)) {u : Token}
    (hu : Tree.token u ∈ xs) : u.kind ≠ .rightBracket := by
  intro hk
  have ht : u.isTrivia = false := by simp [Token.isTrivia, hk, TokenKind.isTrivia]
  have he := h _ (mem_signature u xs hu ht)
  simp [isElement, hk] at he

theorem silent_remark {size s : Nat} {t : Token} {us : List Token} (h : t.kind = .error) :
    Remark size (.node .error s ((t :: us).map .token)) [] :=
  .nothing (by rw [isRejected, first_token]; simp [h]) rfl rfl

theorem rejected_remark {size s : Nat} {t : Token} {us : List Token} {d : Diagnostic}
    (h : t.kind ≠ .error)
    (code : d.code = some .unexpectedToken ∨ d.code = some .nestingTooDeep)
    (span : d.span? = some t.span) :
    Remark size (.node .error s ((t :: us).map .token)) [d] := by
  refine .rejected d ?_ ?_
  · rw [isRejected, first_token]
    simp [h, isKind, kind?]
  · rw [Rejects, first_token]
    exact ⟨code, span⟩

theorem missing_remark {size s : Nat} {d : Diagnostic} (code : d.code = some .missingEndpoint)
    (span : d.span? = some (.empty s)) : Remark size (.node .error s []) [d] :=
  .rejected d rfl ⟨code, rfl, span⟩

section

variable {kind : NodeKind} {scope : Grammar.Scope} (hb : bodyScope? kind = some scope)

include hb

theorem block_kind : kind ≠ .error ∧ kind ≠ .array := by
  constructor
  · rintro rfl
    simp [bodyScope?] at hb
  · rintro rfl
    simp [bodyScope?] at hb

theorem closed_block_remark {size s : Nat} {xs : List Tree} {u : Token}
    (hu : Tree.token u ∈ xs) (hk : u.kind = .rightBrace) : Remark size (.node kind s xs) [] := by
  obtain ⟨he, ha⟩ := block_kind hb
  have hclosed : isClosedBlock (.node kind s xs) = true := (hasToken_iff _ _).mpr ⟨u, hu, hk⟩
  exact .nothing (by simp [isRejected, isKind, kind?, he]) (by simp [isOpenBlock, hclosed])
    (by simp [isOpenArray, isKind, kind?, ha])

theorem open_block_remark {size : Nat} {t : Token} {xs : List Tree} (ht : t.kind = .leftBrace)
    (hitems : Items scope (signature xs)) :
    Remark size (.node kind t.start (.token t :: xs))
      [Grammar.unclosedBlock t.span ⟨[], size⟩] := by
  have hopen : isClosedBlock (.node kind t.start (.token t :: xs)) = false :=
    block_unclosed ht hitems
  refine .openBlock _ (by simp [isOpenBlock, hopen, kind?, hb]) rfl ?_
  exact ⟨t, _, _, rfl, ht, rfl, rfl, rfl, rfl, rfl⟩

end

theorem closed_array_remark {size s : Nat} {xs : List Tree} {u : Token}
    (hu : Tree.token u ∈ xs) (hk : u.kind = .rightBracket) :
    Remark size (.node .array s xs) [] := by
  have hclosed : isClosedArray (.node .array s xs) = true := (hasToken_iff _ _).mpr ⟨u, hu, hk⟩
  exact .nothing rfl rfl (by simp [isOpenArray, hclosed])

theorem open_array_remark {size : Nat} {t : Token} {xs : List Tree} {us : List Token}
    (ht : t.kind = .leftBracket) (helements : Elements (signature xs))
    (hstop : offsetAt size us = stopAll t.stop xs) :
    Remark size (.node .array t.start (.token t :: xs))
      [Grammar.unclosedArray t.span ⟨us, size⟩] := by
  have hopen : isClosedArray (.node .array t.start (.token t :: xs)) = false := by
    rw [Bool.eq_false_iff]
    intro h
    obtain ⟨u, hu, hk⟩ := (hasToken_iff _ _).mp h
    rcases List.mem_cons.mp hu with hu | hu
    · obtain rfl : u = t := by simpa using hu
      simp [ht] at hk
    · exact elements_plain helements hu hk
  refine .openArray _ (by simp [isOpenArray, hopen, isKind, kind?]) rfl ?_
  exact ⟨t, _, _, rfl, ht, rfl, rfl, congrArg Span.empty hstop, rfl, rfl⟩

theorem derives_remarks {size : Nat} {ts us : List Token} {xs : List Tree}
    {ds : List Diagnostic} (h : Derives size ts xs ds us) :
    ∀ o, Covers o ts size → Remarks size (finished xs) ds := by
  induction h with
  | nil | token =>
    intro o ho
    simpa using Remarks.nil
  | append first _ ih ih' =>
    intro o ho
    rw [finished_append]
    exact remarks_append (ih o ho) (ih' _ (derives_placed first o ho).2)
  | leaf kind t us ts tokens =>
    intro o ho
    apply remarks_leaf
    rcases tokens with ⟨rfl | rfl | rfl, -⟩ | ⟨rfl, -⟩ <;>
      exact plain_remark (by decide) (by decide) rfl
  | silent t us ts error =>
    intro o ho
    exact remarks_leaf (silent_remark error)
  | rejected t us ts d fresh code span =>
    intro o ho
    exact remarks_leaf (rejected_remark fresh code span)
  | missing ts d code span =>
    intro o ho
    exact @remarks_leaf _ _ _ [] _ (missing_remark code span)
  | deepValue t us ts d bracket code span =>
    intro o ho
    have hfresh : t.kind ≠ .error := by
      rw [bracket]
      decide
    refine remarks_plain ?_ (by decide) (by decide) rfl
    exact remarks_leaf (rejected_remark hfresh (.inr code) span)
  | arrayValue _ _ _ ih =>
    intro o ho
    exact remarks_plain (ih o ho) (by decide) (by decide) rfl
  | @closedArray t u ts us xs ds bracket _ elements close ih =>
    intro o ho
    have hx := ih _ (covers_cons.mp ho).2.2
    have hmem : Tree.token u ∈ Tree.token t :: (xs ++ [.token u]) := by simp
    rw [← List.append_nil ds]
    exact remarks_node (by simpa using hx) (closed_array_remark hmem close)
  | @openArray t ts us xs ds bracket inside elements ih =>
    intro o ho
    have hrest := (covers_cons.mp ho).2.2
    have hstop := offset_covers (derives_placed inside _ hrest).2
    exact remarks_node (by simpa using ih _ hrest) (open_array_remark bracket elements hstop)
  | @closedBlock kind scope t u ts us xs ds body brace _ items close ih =>
    intro o ho
    have hx := ih _ (covers_cons.mp ho).2.2
    have hmem : Tree.token u ∈ Tree.token t :: (xs ++ [.token u]) := by simp
    rw [← List.append_nil ds]
    exact remarks_node (by simpa using hx) (closed_block_remark body hmem close)
  | openBlock body brace _ items ih =>
    intro o ho
    have hx := ih _ (covers_cons.mp ho).2.2
    exact remarks_node (by simpa using hx) (open_block_remark body brace items)
  | definition kinds _ _ ih =>
    intro o ho
    rcases kinds with rfl | rfl <;>
      exact remarks_plain (ih o ho) (by decide) (by decide) rfl
  | connection first chain _ _ _ _ _ _ _ ih ih' ih'' =>
    intro o ho
    have hc := (derives_placed first o ho).2
    have hc' := (derives_placed chain _ hc).2
    refine remarks_plain ?_ (by decide) (by decide) rfl
    rw [← List.singleton_append, finished_append, finished_append]
    exact remarks_append (ih o ho) (remarks_append (ih' _ hc) (ih'' _ hc'))

end DiagramText.Reports
