import DiagramText.Tree

/-!
# Listings of a tree

One line for each node and token, parents first, indented by two spaces for
each level. Token texts are quoted, so a line never breaks and the document
can be read back from the listing.
-/

set_option autoImplicit false

namespace DiagramText.Tree

def indent : Nat → String
  | 0 => ""
  | n + 1 => "  " ++ indent n

mutual

def listingAt (depth : Nat) : Tree → List String
  | token t => [indent depth ++ t.display]
  | node k s cs => (indent depth ++ reference (node k s cs)) :: listingAll (depth + 1) cs

def listingAll (depth : Nat) : List Tree → List String
  | [] => []
  | c :: cs => listingAt depth c ++ listingAll depth cs

end

def listing (t : Tree) : List String := listingAt 0 t

/-- The listing as one text, each line with its end. -/
def dump (t : Tree) : String := String.join (t.listing.map (· ++ "\n"))

end DiagramText.Tree
