import DiagramText.Proofs.EditedGrammar
import DiagramText.Proofs.Layout

/-!
# Relabelling tokens

The grammar looks at the kinds of tokens, at commas and at reserved words, and
copies offsets into nodes and labels. A map of tokens that keeps the first
three and moves all offsets alike is an edit that fits every row, so it
commutes with the grammar. Moving the whole document by some bytes is such a
map.
-/

set_option autoImplicit false

namespace DiagramText

open Rule Lookahead Grammar

structure Relabelling where
  token : Token → Token
  offset : Nat → Nat
  kind : ∀ t, (token t).kind = t.kind
  start : ∀ t, (token t).start = offset t.start
  stop : ∀ t, (token t).stop = offset t.stop
  comma : ∀ t, isComma (token t) = isComma t
  reserved : ∀ t, Keyword.isReserved (token t).spelling = Keyword.isReserved t.spelling

namespace Relabelling

/-- Moves every offset up by so many bytes. -/
def shift (n : Nat) : Relabelling where
  token t := { t with start := t.start + n }
  offset o := o + n
  kind _ := rfl
  start _ := rfl
  stop t := Nat.add_right_comm t.start n _
  comma _ := rfl
  reserved _ := rfl

variable (r : Relabelling)

def span (s : Span) : Span := ⟨r.offset s.start, r.offset s.stop⟩

def label (l : Label) : Label := { l with span := r.span l.span }

def diagnostic (d : Diagnostic) : Diagnostic := { d with labels := d.labels.map r.label }

mutual

def tree : Tree → Tree
  | .token t => .token (r.token t)
  | .node k s cs => .node k (r.offset s) (trees cs)

def trees : List Tree → List Tree
  | [] => []
  | c :: cs => tree c :: trees cs

end

def cursor (c : Cursor) : Cursor := ⟨c.tokens.map r.token, r.offset c.stop⟩

def output (o : Output) : Output :=
  ⟨r.trees o.trees, o.diagnostics.map r.diagnostic, r.cursor o.cursor, o.stuck⟩

theorem token_span (t : Token) : (r.token t).span = r.span t.span := by
  rw [Token.span, r.start, r.stop]
  rfl

/-- On relabelled tokens the first rule does what the second does on the tokens themselves. -/
def Mimics (p q : Rule) : Prop := ∀ c, p (r.cursor c) = r.output (q c)

abbrev Commutes (p : Rule) : Prop := r.Mimics p p

def edit : Edit := ⟨fun t => some (r.token t), r.offset⟩

theorem edit_fits (stop : Nat) (ts : List Token) : r.edit.Fits stop ts := by
  induction ts with
  | nil => exact .nil
  | cons t ts ih =>
    exact .keep rfl ⟨.inl (r.kind t), r.start t, r.stop t, r.comma t, fun _ => r.reserved t⟩ ih

theorem edit_row (ts : List Token) : r.edit.row ts = ts.map r.token :=
  congrFun (List.filterMap_eq_map (f := r.token)) ts

theorem edit_trees (xs : List Tree) : r.edit.trees xs = r.trees xs := by
  induction xs using Layout.forest_induction with
  | nil => rfl
  | token t xs ih => exact congrArg (Tree.token (r.token t) :: ·) ih
  | node k s cs xs ihc ih =>
    simp only [Edit.trees, Edit.tree, trees, tree, ihc, ih, List.singleton_append]
    rfl

theorem edit_cursor (c : Cursor) : r.edit.cursor c = r.cursor c := by
  rw [Edit.cursor, edit_row]
  rfl

theorem edit_output (o : Output) : r.edit.output o = r.output o := by
  rw [Edit.output, edit_trees, edit_cursor]
  rfl

theorem document_commutes {r : Relabelling} : r.Commutes document := by
  intro c
  have hedited := Edit.document_edited (r.edit_fits c.stop c.tokens)
  rwa [edit_cursor, edit_output] at hedited

end Relabelling

end DiagramText
