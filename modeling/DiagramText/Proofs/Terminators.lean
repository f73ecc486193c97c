import DiagramText.Parse
import DiagramText.Proofs.EditedGrammar
import DiagramText.Proofs.Layout

/-!
# The two line breaks

A newline and a semicolon end a statement, stop a run of text and separate the
elements of an array alike. Writing one for the other, at some breaks or at
all, gives the same nodes and the same diagnostics: turning every break into a
newline is an edit, and after it the two rows of tokens are one.
-/

set_option autoImplicit false

namespace DiagramText.Terminators
open Layout

/-- The same token, or the other break in its place. -/
structure Interchanged (t u : Token) : Prop where
  kind : Alike t.kind u.kind
  start : u.start = t.start
  text : u.text = t.text

def asNewline (t : Token) : Token := if isBreak t.kind then { t with kind := .newline } else t

def newlines : Edit := ⟨fun t => some (asNewline t), id⟩

theorem newline_kind (t : Token) : Alike t.kind (asNewline t).kind := by
  unfold asNewline
  split
  · next h => exact .inr ⟨h, rfl⟩
  · exact .inl rfl

theorem newline_place (t : Token) :
    (asNewline t).start = t.start ∧ (asNewline t).text = t.text := by
  unfold asNewline
  split <;> exact ⟨rfl, rfl⟩

theorem newline_keeps (t : Token) : newlines.Keeps t (asNewline t) := by
  obtain ⟨hstart, htext⟩ := newline_place t
  have hkind := newline_kind t
  refine ⟨hkind, hstart, ?_, ?_, ?_⟩
  · rw [Token.stop, hstart, htext]
    rfl
  · rw [Lookahead.isComma, Lookahead.isComma, htext, alike_test (p := (· == .symbol)) rfl hkind]
  · intro _
    rw [Token.spelling, htext]
    rfl

theorem newlines_fit (stop : Nat) (ts : List Token) : newlines.Fits stop ts := by
  induction ts with
  | nil => exact .nil
  | cons t ts ih => exact .keep rfl (newline_keeps t) ih

theorem newline_break {t : Token} (h : isBreak t.kind = true) :
    asNewline t = { t with kind := .newline } := if_pos h

theorem newline_other {t : Token} (h : isBreak t.kind = false) : asNewline t = t :=
  if_neg (by simp [h])

theorem newline_interchanged {t u : Token} (h : Interchanged t u) : asNewline t = asNewline u := by
  obtain ⟨kind, start, text⟩ := t
  obtain ⟨kind', start', text'⟩ := u
  obtain ⟨hkind, hstart, htext⟩ := h
  obtain rfl : start' = start := hstart
  obtain rfl : text' = text := htext
  rcases hkind with hk | ⟨ht, hu⟩
  · obtain rfl : kind' = kind := hk
    rfl
  · rw [newline_break ht, newline_break hu]

theorem interchanged_of_newline {t u : Token} (h : asNewline t = asNewline u) :
    Interchanged t u := by
  obtain ⟨hstart, htext⟩ := newline_place t
  obtain ⟨hstart', htext'⟩ := newline_place u
  refine ⟨?_, by rw [← hstart, h, hstart'], by rw [← htext, h, htext']⟩
  cases ht : isBreak t.kind with
  | true =>
    cases hu : isBreak u.kind with
    | true => exact .inr ⟨ht, hu⟩
    | false =>
      rw [newline_break ht, newline_other hu] at h
      simp [← h, isBreak] at hu
  | false =>
    cases hu : isBreak u.kind with
    | true =>
      rw [newline_other ht, newline_break hu] at h
      simp [h, isBreak] at ht
    | false =>
      rw [newline_other ht, newline_other hu] at h
      exact .inl (congrArg Token.kind h.symm)

theorem row_interchanged {ts us : List Token} (h : List.Forall₂ Interchanged ts us) :
    newlines.row ts = newlines.row us := by
  induction h with
  | nil => rfl
  | cons ht _ ih => rw [Edit.row_keep rfl, Edit.row_keep rfl, newline_interchanged ht, ih]

theorem trees_interchanged {xs ys : List Tree} (h : newlines.trees xs = newlines.trees ys) :
    Matched Interchanged xs ys := by
  induction xs using forest_induction generalizing ys with
  | nil =>
    cases ys with
    | nil => exact .nil
    | cons y ys => cases y <;> simp [Edit.trees, Edit.tree, newlines] at h
  | token t xs ih =>
    cases ys with
    | nil => simp [Edit.trees, Edit.tree, newlines] at h
    | cons y ys =>
      cases y with
      | node k s cs => simp [Edit.trees, Edit.tree, newlines] at h
      | token u =>
        obtain ⟨hhead, htail⟩ := List.cons.inj h
        exact .token (interchanged_of_newline (Tree.token.inj hhead)) (ih htail)
  | node k s cs xs ihc ih =>
    cases ys with
    | nil => simp [Edit.trees, Edit.tree] at h
    | cons y ys =>
      cases y with
      | token u => simp [Edit.trees, Edit.tree, newlines] at h
      | node l o ds =>
        obtain ⟨hhead, htail⟩ := List.cons.inj h
        obtain ⟨rfl, hstart, hchildren⟩ := Tree.node.inj hhead
        obtain rfl : s = o := hstart
        exact .node (ihc hchildren) (ih htail)

theorem diagnostic_still (d : Diagnostic) : newlines.diagnostic d = d := by
  obtain ⟨severity, code, message, labels, help⟩ := d
  have hlabels : labels.map newlines.label = labels := List.map_id labels
  exact congrArg (Diagnostic.mk severity code message · help) hlabels

structure SameParse (size : Nat) (ts us : List Token) : Prop where
  tokens : (parseTokens size ts).tree.tokens = ts ∧ (parseTokens size us).tree.tokens = us
  nodes : Matched Interchanged [(parseTokens size ts).tree] [(parseTokens size us).tree]
  spans : nodeSpans [(parseTokens size us).tree] = nodeSpans [(parseTokens size ts).tree]
  diagnostics : (parseTokens size us).diagnostics = (parseTokens size ts).diagnostics

theorem document_tokens (size : Nat) (ts : List Token) :
    (parseTokens size ts).tree.tokens = ts := by
  obtain ⟨-, hderives, -⟩ := Nesting.document_derives ts size
  have htokens := Derivation.outermost_tokens hderives
  rw [List.append_nil] at htokens
  exact htokens.symm

/-- Newlines and semicolons may be written for each other anywhere in a row of tokens. -/
theorem parse_tokens_interchanged (size : Nat) {ts us : List Token}
    (h : List.Forall₂ Interchanged ts us) : SameParse size ts us := by
  have hedited (vs : List Token) : Grammar.document (newlines.cursor ⟨vs, size⟩) =
      newlines.output (Grammar.document ⟨vs, size⟩) :=
    Edit.document_edited (newlines_fit size vs)
  have hcursor : newlines.cursor ⟨ts, size⟩ = newlines.cursor ⟨us, size⟩ :=
    congrArg (Cursor.mk · size) (row_interchanged h)
  have houtput : newlines.output (Grammar.document ⟨ts, size⟩) =
      newlines.output (Grammar.document ⟨us, size⟩) := by
    rw [← hedited, ← hedited, hcursor]
  have hnodes : Matched Interchanged [(parseTokens size ts).tree] [(parseTokens size us).tree] :=
    .node (trees_interchanged (congrArg Output.trees houtput)) .nil
  refine ⟨⟨document_tokens size ts, document_tokens size us⟩, hnodes, ?_, ?_⟩
  · refine matched_spans (fun t u htu => ?_) hnodes
    rw [Token.stop, Token.stop, htu.start, htu.text]
  · have hdiagnostics := congrArg Output.diagnostics houtput
    simp only [Edit.output, funext diagnostic_still, List.map_id'] at hdiagnostics
    exact hdiagnostics.symm

theorem semicolon_line_interchanged :
    List.Forall₂ Interchanged
        [⟨.identifier, 0, ['a']⟩, ⟨.semicolon, 1, [';']⟩, ⟨.newline, 2, ['\n']⟩]
        [⟨.identifier, 0, ['a']⟩, ⟨.newline, 1, [';']⟩, ⟨.semicolon, 2, ['\n']⟩] ∧
      SameParse 3
        [⟨.identifier, 0, ['a']⟩, ⟨.semicolon, 1, [';']⟩, ⟨.newline, 2, ['\n']⟩]
        [⟨.identifier, 0, ['a']⟩, ⟨.newline, 1, [';']⟩, ⟨.semicolon, 2, ['\n']⟩] := by
  have hrows : List.Forall₂ Interchanged
      [⟨.identifier, 0, ['a']⟩, ⟨.semicolon, 1, [';']⟩, ⟨.newline, 2, ['\n']⟩]
      [⟨.identifier, 0, ['a']⟩, ⟨.newline, 1, [';']⟩, ⟨.semicolon, 2, ['\n']⟩] :=
    .cons ⟨.inl rfl, rfl, rfl⟩ (.cons ⟨.inr ⟨rfl, rfl⟩, rfl, rfl⟩
      (.cons ⟨.inr ⟨rfl, rfl⟩, rfl, rfl⟩ .nil))
  exact ⟨hrows, parse_tokens_interchanged 3 hrows⟩

end DiagramText.Terminators
