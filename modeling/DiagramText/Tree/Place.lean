import DiagramText.Tree

/-!
# Places in a tree

A place is a node together with the nodes above it, nearest first. The places
of a tree are listed parents first, which numbers the nodes; a token is found
from an offset together with the node that holds it.
-/

set_option autoImplicit false

namespace DiagramText

structure Place where
  node : Tree
  above : List Tree

namespace Place

def parent? (p : Place) : Option Tree := p.above.head?

def root (p : Place) : Tree := p.above.getLast?.getD p.node

end Place

namespace Tree

mutual

def placesUnder (above : List Tree) : Tree → List Place
  | token _ => []
  | node k s cs => ⟨node k s cs, above⟩ :: placesUnderAll (node k s cs :: above) cs

def placesUnderAll (above : List Tree) : List Tree → List Place
  | [] => []
  | c :: cs => placesUnder above c ++ placesUnderAll above cs

end

/-- Every node of the tree with its ancestors, parents first. -/
def places (t : Tree) : List Place := placesUnder [] t

mutual

def leaves (holder : Tree) : Tree → List (Token × Tree)
  | token t => [(t, holder)]
  | node k s cs => leavesAll (node k s cs) cs

def leavesAll (holder : Tree) : List Tree → List (Token × Tree)
  | [] => []
  | c :: cs => leaves holder c ++ leavesAll holder cs

end

def tokenAt? (t : Tree) (offset : Nat) : Option (Token × Tree) :=
  (leaves t t).find? fun leaf => leaf.1.span.contains offset

end Tree

end DiagramText
