import DiagramText.Proofs.Reports
import Mathlib.Data.List.Forall2

/-!
# Diagnostics account for the tree

The diagnostics of the grammar and the nodes of the tree correspond. Those of
one kind, taken out of the diagnostics of a text, match one by one the nodes
that the tree marks for them: rejected error nodes, blocks and arrays without
their closing token, and blocks that no shape owns.
-/

set_option autoImplicit false

namespace DiagramText.Accounting
open Production Scanning DiagramText.Derivation Layout Schema Nesting Reports DiagramText.Tree

def codeIn (cs : List Code) (d : Diagnostic) : Bool := d.code.any cs.contains

/-- Codes of error nodes. -/
def rejections : List Code := [.unexpectedToken, .missingEndpoint, .nestingTooDeep]

/-- A block without an owner is reported at its opening brace. -/
def Unowned (n : Tree) (d : Diagnostic) : Prop :=
  ∃ t, n.elements.head? = some (.token t) ∧ t.kind = .leftBrace ∧ d.span? = some t.span

theorem rejected_kind {n : Tree} (h : isRejected n = true) : n.kind? = some .error := by
  simp only [isRejected, isKind, Bool.and_eq_true, beq_iff_eq] at h
  exact h.1

theorem open_array_kind {n : Tree} (h : isOpenArray n = true) : n.kind? = some .array := by
  simp only [isOpenArray, isKind, Bool.and_eq_true, beq_iff_eq] at h
  exact h.1

theorem open_block_scope {n : Tree} (h : isOpenBlock n = true) :
    (n.kind?.bind bodyScope?).isSome = true := by
  simp only [isOpenBlock, Bool.and_eq_true] at h
  exact h.1

theorem marks_exclusive (n : Tree) :
    (isRejected n = true → isOpenBlock n = false ∧ isOpenArray n = false) ∧
      (isOpenBlock n = true → isRejected n = false ∧ isOpenArray n = false) ∧
      (isOpenArray n = true → isRejected n = false ∧ isOpenBlock n = false) := by
  have block (k : NodeKind) (hk : n.kind? = some k) (hb : bodyScope? k = none) :
      isOpenBlock n = false := by
    simp [isOpenBlock, hk, hb]
  have reject (hk : n.kind? ≠ some .error) : isRejected n = false := by
    simp [isRejected, isKind, hk]
  have array (hk : n.kind? ≠ some .array) : isOpenArray n = false := by
    simp [isOpenArray, isKind, hk]
  refine ⟨fun h => ?_, fun h => ?_, fun h => ?_⟩
  · have hk := rejected_kind h
    exact ⟨block .error hk rfl, array (by simp [hk])⟩
  · have hs := open_block_scope h
    exact ⟨reject fun hk => by simp [hk, bodyScope?] at hs,
      array fun hk => by simp [hk, bodyScope?] at hs⟩
  · have hk := open_array_kind h
    exact ⟨reject (by simp [hk]), block .array hk rfl⟩

/-- What the remark on a node says in one group of codes: one fitting diagnostic if the node is
marked for the group, and nothing otherwise. -/
def Settles (mark : Tree → Bool) (cs : List Code) (Fits : Tree → Diagnostic → Prop) (n : Tree)
    (es : List Diagnostic) : Prop :=
  (mark n = true → ∃ d, es.filter (codeIn cs) = [d] ∧ Fits n d) ∧
    (mark n = false → es.filter (codeIn cs) = [])

theorem settles_marked {mark : Tree → Bool} {cs : List Code} {Fits : Tree → Diagnostic → Prop}
    {n : Tree} {d : Diagnostic} (hm : mark n = true) (hc : codeIn cs d = true) (hf : Fits n d) :
    Settles mark cs Fits n [d] :=
  ⟨fun _ => ⟨d, by simp [hc], hf⟩, fun h => absurd (hm.symm.trans h) (by decide)⟩

theorem settles_unmarked {mark : Tree → Bool} {cs : List Code}
    {Fits : Tree → Diagnostic → Prop} {n : Tree} {es : List Diagnostic} (hm : mark n = false)
    (hc : ∀ d ∈ es, codeIn cs d = false) : Settles mark cs Fits n es := by
  refine ⟨fun h => absurd (hm.symm.trans h) (by decide), fun _ => ?_⟩
  rw [List.filter_eq_nil_iff]
  intro d hd
  simp [hc d hd]

theorem rejects_code {n : Tree} {d : Diagnostic} (h : Rejects n d) :
    d.code = some .unexpectedToken ∨ d.code = some .missingEndpoint ∨
      d.code = some .nestingTooDeep := by
  unfold Rejects at h
  split at h
  · exact .inr (.inl h.1)
  · exact h.1.imp_right .inr

theorem remark_rejections {size : Nat} {n : Tree} {es : List Diagnostic} (h : Remark size n es) :
    Settles isRejected rejections Rejects n es := by
  obtain ⟨-, hblock, harray⟩ := marks_exclusive n
  cases h with
  | nothing accepted => exact settles_unmarked accepted (by simp)
  | rejected d mark rejects =>
    refine settles_marked mark ?_ rejects
    rcases rejects_code rejects with hc | hc | hc <;> simp [codeIn, hc, rejections]
  | openBlock d mark code =>
    exact settles_unmarked (hblock mark).1 (by simp [codeIn, code, rejections])
  | openArray d mark code =>
    exact settles_unmarked (harray mark).1 (by simp [codeIn, code, rejections])

theorem remark_blocks {size : Nat} {n : Tree} {es : List Diagnostic} (h : Remark size n es) :
    Settles isOpenBlock [.unclosedBlock] (Points .leftBrace size) n es := by
  obtain ⟨hreject, -, harray⟩ := marks_exclusive n
  cases h with
  | nothing _ block => exact settles_unmarked block (by simp)
  | rejected d mark rejects =>
    apply settles_unmarked (hreject mark).1
    rcases rejects_code rejects with hc | hc | hc <;> simp [codeIn, hc]
  | openBlock d mark code points => exact settles_marked mark (by simp [codeIn, code]) points
  | openArray d mark code => exact settles_unmarked (harray mark).2 (by simp [codeIn, code])

theorem remark_arrays {size : Nat} {n : Tree} {es : List Diagnostic} (h : Remark size n es) :
    Settles isOpenArray [.unexpectedEnd] (fun n => Points .leftBracket n.stop n) n es := by
  obtain ⟨hreject, hblock, -⟩ := marks_exclusive n
  cases h with
  | nothing _ _ array => exact settles_unmarked array (by simp)
  | rejected d mark rejects =>
    apply settles_unmarked (hreject mark).2
    rcases rejects_code rejects with hc | hc | hc <;> simp [codeIn, hc]
  | openBlock d mark code => exact settles_unmarked (hblock mark).2 (by simp [codeIn, code])
  | openArray d mark code points => exact settles_marked mark (by simp [codeIn, code]) points

theorem remarks_filter {size : Nat} {ns : List Tree} {ds : List Diagnostic}
    {mark : Tree → Bool} {cs : List Code} {Fits : Tree → Diagnostic → Prop}
    (h : Remarks size ns ds) (step : ∀ n es, Remark size n es → Settles mark cs Fits n es) :
    List.Forall₂ Fits (ns.filter mark) (ds.filter (codeIn cs)) := by
  induction h with
  | nil => exact .nil
  | @cons n ns es ds first _ ih =>
    obtain ⟨hyes, hno⟩ := step n es first
    rw [List.filter_append]
    cases hm : mark n with
    | true =>
      obtain ⟨d, hd, hfit⟩ := hyes hm
      rw [List.filter_cons_of_pos hm, hd]
      exact .cons hfit ih
    | false =>
      rw [List.filter_cons_of_neg (by simp [hm]), hno hm]
      exact ih

theorem remarks_codes {size : Nat} {ns : List Tree} {ds : List Diagnostic}
    (h : Remarks size ns ds) :
    ∀ d ∈ ds, ∃ k, d.code = some k ∧ k.phase = .parse ∧ k ≠ .anonymousBlock := by
  induction h with
  | nil => simp
  | cons first _ ih =>
    intro d hd
    rcases List.mem_append.mp hd with hd | hd
    · cases first with
      | nothing => simp at hd
      | rejected e _ rejects =>
        obtain rfl : d = e := by simpa using hd
        rcases rejects_code rejects with hc | hc | hc <;> exact ⟨_, hc, rfl, by decide⟩
      | openBlock e _ code | openArray e _ code =>
        obtain rfl : d = e := by simpa using hd
        exact ⟨_, code, rfl, by decide⟩
    · exact ih d hd

theorem nodeless_nodes {xs : List Tree} (h : Nodeless xs) : nodesAll xs = [] := by
  induction xs with
  | nil => rfl
  | cons x xs ih =>
    cases x with
    | token t => exact ih fun y hy => h y (by simp [hy])
    | node k s cs =>
      have hn := h (.node k s cs) (by simp)
      simp [isNode, kind?] at hn

theorem finished_rejected {xs : List Tree} (h : ∀ n ∈ nodesAll xs, Lawful n) :
    (finished xs).filter isRejected = (nodesAll xs).filter isRejected := by
  induction xs using forest_induction with
  | nil => simp [nodesAll]
  | token t xs ih => simpa [nodesAll, nodes] using ih h
  | node k s cs xs ihc ih =>
    have hcs := ihc fun n hn => h n (by simp [nodesAll, nodes, hn])
    have hxs := ih fun n hn => h n (by simp [nodesAll, hn])
    by_cases hr : isRejected (.node k s cs) = true
    · obtain ⟨k', hk', hc⟩ := h (.node k s cs) (by simp [nodesAll, nodes])
      obtain rfl : k' = .error := Option.some.inj (hk'.symm.trans (rejected_kind hr))
      have hnone : nodesAll cs = [] := nodeless_nodes hc
      have hdone : finished cs = [] := by
        have hperm := finished_perm cs
        rwa [hnone, List.perm_nil] at hperm
      simp [nodesAll, nodes, hnone, hdone, hr, hxs]
    · simp [nodesAll, nodes, hr, hcs, hxs]

theorem unowned_block {size : Nat} {ts us : List Token} {x : Tree} {ds : List Diagnostic}
    {d : Diagnostic} (h : Derives size ts [x] ds us) (hk : x.isKind .subShapeDefinition = true)
    (hspan : d.span? = ts.head?.map (·.span)) : Unowned x d := by
  have htok := derives_tokens h
  obtain ⟨s, cs, rfl⟩ := node_of_kind (eq_of_beq hk)
  have hl := derives_lawful h (.node .subShapeDefinition s cs) (by simp [nodesAll, nodes])
  obtain ⟨⟨t, hhead, ht⟩, -⟩ := lawful_braced hl rfl rfl
  refine ⟨t, hhead, ht, ?_⟩
  obtain ⟨rest, hcs⟩ := List.head?_eq_some_iff.mp hhead
  obtain rfl : cs = .token t :: rest := hcs
  rw [hspan, htok]
  simp [tokensAll, tokens]

theorem derives_owned {size : Nat} {ts us : List Token} {xs : List Tree} {ds : List Diagnostic}
    (h : Derives size ts xs ds us) (o : Nat) (ho : Covers o ts size) :
    Remarks size (finished xs) (ds.filter (!codeIn [.anonymousBlock] ·)) ∧
      ds.filter (codeIn [.anonymousBlock]) = [] := by
  have hr := derives_remarks h o ho
  have hno : ∀ d ∈ ds, codeIn [.anonymousBlock] d = false := by
    intro d hd
    obtain ⟨k, hk, -, hne⟩ := remarks_codes hr d hd
    simp [codeIn, hk, hne]
  have hall : ds.filter (!codeIn [.anonymousBlock] ·) = ds := by
    rw [List.filter_eq_self]
    intro d hd
    simp [hno d hd]
  constructor
  · rwa [hall]
  · rw [List.filter_eq_nil_iff]
    intro d hd
    simp [hno d hd]

theorem outermost_remarks {size : Nat} {ts us : List Token} {xs : List Tree}
    {ds : List Diagnostic} (h : Outermost size ts xs ds us) :
    ∀ o, Covers o ts size →
      Remarks size (finished xs) (ds.filter (!codeIn [.anonymousBlock] ·)) ∧
        List.Forall₂ Unowned (xs.filter (isKind .subShapeDefinition))
          (ds.filter (codeIn [.anonymousBlock])) := by
  induction h with
  | @piece ts us xs ds derives _ owned =>
    intro o ho
    obtain ⟨hr, hnone⟩ := derives_owned derives o ho
    refine ⟨hr, ?_⟩
    have hown : xs.filter (isKind .subShapeDefinition) = [] := by
      rw [List.filter_eq_nil_iff]
      intro x hx
      simp [owned x hx]
    rw [hnone, hown]
    exact .nil
  | append first _ ih ih' =>
    intro o ho
    obtain ⟨hr, hf⟩ := ih o ho
    obtain ⟨hr', hf'⟩ := ih' _ (outermost_placed first o ho).2
    rw [finished_append, List.filter_append, List.filter_append, List.filter_append]
    exact ⟨remarks_append hr hr', List.rel_append hf hf'⟩
  | stray t ts d brace code span =>
    intro o ho
    have hfresh : t.kind ≠ .error := by
      rw [brace]
      decide
    have hr : Remarks size (finished [.node .error t.start [.token t]]) [d] :=
      @remarks_leaf _ _ _ [t] _ (rejected_remark hfresh (.inl code) span)
    refine ⟨by simpa [codeIn, code] using hr, ?_⟩
    simp [codeIn, code, isKind, kind?]
  | @anonymous ts us x ds d block kind code span =>
    intro o ho
    obtain ⟨hr, hnone⟩ := derives_owned block o ho
    have hyes : codeIn [.anonymousBlock] d = true := by simp [codeIn, code]
    rw [List.filter_cons_of_neg (by simp [hyes]), List.filter_cons_of_pos hyes, hnone,
      List.filter_cons_of_pos kind, List.filter_nil]
    exact ⟨hr, .cons (unowned_block block kind span) .nil⟩

/-- The diagnostics of a text, kind by kind, with the nodes that they are about. -/
structure Accounted (text : String) : Prop where
  rejected : List.Forall₂ Rejects ((parse text).tree.nodes.filter isRejected)
    ((parse text).diagnostics.filter (codeIn rejections))
  blocks : ∃ order, order.Perm ((parse text).tree.nodes.filter isOpenBlock) ∧
    List.Forall₂ (Points .leftBrace text.utf8ByteSize) order
      ((parse text).diagnostics.filter (codeIn [.unclosedBlock]))
  arrays : ∃ order, order.Perm ((parse text).tree.nodes.filter isOpenArray) ∧
    List.Forall₂ (fun n => Points .leftBracket n.stop n) order
      ((parse text).diagnostics.filter (codeIn [.unexpectedEnd]))
  unowned : List.Forall₂ Unowned ((parse text).tree.childrenOf .subShapeDefinition)
    ((parse text).diagnostics.filter (codeIn [.anonymousBlock]))
  complete : ∀ d ∈ (parse text).diagnostics, Lexical d ∨
    codeIn (rejections ++ [.unclosedBlock, .unexpectedEnd, .anonymousBlock]) d = true

theorem lexical_outside {cs : List Code} {ds : List Diagnostic} (h : ∀ d ∈ ds, Lexical d)
    (hcs : ∀ k ∈ cs, k.phase = .parse) : ds.filter (codeIn cs) = [] := by
  rw [List.filter_eq_nil_iff]
  intro d hd hin
  obtain ⟨k, hk, hscan⟩ := h d hd
  have hmem : k ∈ cs := by simpa [codeIn, hk] using hin
  rw [hcs k hmem] at hscan
  simp at hscan

theorem owned_filter {cs : List Code} (ds : List Diagnostic) (h : Code.anonymousBlock ∉ cs) :
    (ds.filter (!codeIn [.anonymousBlock] ·)).filter (codeIn cs) = ds.filter (codeIn cs) := by
  rw [List.filter_filter]
  refine List.filter_congr fun d _ => ?_
  cases hk : d.code with
  | none => simp [codeIn, hk]
  | some k =>
    by_cases hka : k = .anonymousBlock
    · subst hka
      simp [codeIn, hk, h]
    · simp [codeIn, hk, hka]

theorem parse_filter (text : String) (cs : List Code) (hcs : ∀ k ∈ cs, k.phase = .parse) :
    (parse text).diagnostics.filter (codeIn cs) =
      (Grammar.document ⟨(tokenize text).1, text.utf8ByteSize⟩).diagnostics.filter
        (codeIn cs) := by
  show ((tokenize text).2 ++ _).filter _ = _
  rw [List.filter_append, lexical_outside (tokenize_lexical text) hcs, List.nil_append]
  rfl

theorem finished_marked (text : String) (mark : Tree → Bool)
    (h : ∀ xs, mark (.node .document 0 xs) = false) :
    ((finished (parse text).tree.elements).filter mark).Perm
      ((parse text).tree.nodes.filter mark) := by
  have hp := (finished_perm (parse text).tree.elements).filter mark
  have hroot : (parse text).tree.nodes.filter mark =
      (nodesAll (parse text).tree.elements).filter mark :=
    List.filter_cons_of_neg (by simp [h])
  rwa [hroot]

theorem grammar_codes {size : Nat} {ns : List Tree} {ds : List Diagnostic}
    (h : Remarks size ns (ds.filter (!codeIn [.anonymousBlock] ·))) :
    ∀ d ∈ ds, codeIn (rejections ++ [.unclosedBlock, .unexpectedEnd, .anonymousBlock]) d =
      true := by
  intro d hd
  cases hk : d.code with
  | none =>
    obtain ⟨k, hk', -, -⟩ := remarks_codes h d (List.mem_filter.mpr ⟨hd, by simp [codeIn, hk]⟩)
    simp [hk] at hk'
  | some k =>
    by_cases hka : k = .anonymousBlock
    · simp [codeIn, hk, hka]
    · obtain ⟨k', hk', hphase, -⟩ := remarks_codes h d
        (List.mem_filter.mpr ⟨hd, by simp [codeIn, hk, hka]⟩)
      obtain rfl : k = k' := Option.some.inj (hk.symm.trans hk')
      cases k <;> simp_all [codeIn, rejections, Code.phase]

theorem parse_accounted (text : String) : Accounted text := by
  obtain ⟨-, hd, -⟩ := document_derives (tokenize text).1 text.utf8ByteSize
  obtain ⟨hr, hf⟩ := outermost_remarks hd 0 (tokenize_covers text)
  constructor
  · rw [parse_filter text _ (by decide), ← owned_filter _ (by decide)]
    have h := remarks_filter hr fun n es => remark_rejections
    rw [finished_rejected (outermost_lawful hd)] at h
    exact h
  · rw [parse_filter text _ (by decide), ← owned_filter _ (by decide)]
    exact ⟨_, finished_marked text isOpenBlock fun _ => rfl,
      remarks_filter hr fun n es => remark_blocks⟩
  · rw [parse_filter text _ (by decide), ← owned_filter _ (by decide)]
    exact ⟨_, finished_marked text isOpenArray fun _ => rfl,
      remarks_filter hr fun n es => remark_arrays⟩
  · rw [parse_filter text _ (by decide)]
    exact hf
  · intro d hmem
    rcases List.mem_append.mp hmem with hmem | hmem
    · exact .inl (tokenize_lexical text d hmem)
    · exact .inr (grammar_codes hr d hmem)

end DiagramText.Accounting
