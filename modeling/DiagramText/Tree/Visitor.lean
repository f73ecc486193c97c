import DiagramText.Tree

/-!
# Visitors

A visitor answers for every node: with a special reading for the kinds that
it names and with a general one for the rest. A walk asks it about a node and
all nodes below, parents first.
-/

set_option autoImplicit false

namespace DiagramText

structure Visitor (α : Type) where
  general : Tree → α
  special : NodeKind → Option (Tree → α) := fun _ => none

namespace Visitor

variable {α : Type}

def visit (v : Visitor α) (t : Tree) : α :=
  match t.kind?.bind v.special with
  | some f => f t
  | none => v.general t

def walk (v : Visitor α) (t : Tree) : List α := t.nodes.map v.visit

end Visitor

end DiagramText
