/-!
# Shape ids

A shape is addressed by a dotted path such as `network.cell.tower`. An id is
the text of that path; two ids are equal when their texts are.
-/

set_option autoImplicit false

namespace DiagramText

structure Id where
  text : String
  deriving DecidableEq, Repr

namespace Id

def joinSegments (segments : List String) : String :=
  segments.foldl (fun joined s => if joined.isEmpty then s else joined ++ "." ++ s) ""

def ofSegments (segments : List String) : Id := ⟨joinSegments segments⟩

def nest (parent child : Id) : Id := ⟨parent.text ++ "." ++ child.text⟩

/-- What stands before the last dot, nearest dot first in the reversed text. -/
def beforeLastDot? (cs : List Char) : Option (List Char) :=
  match cs.reverse.dropWhile (· ≠ '.') with
  | [] => none
  | _ :: before => some before.reverse

def parent? (id : Id) : Option Id := (beforeLastDot? id.text.toList).map fun cs => ⟨.ofList cs⟩

def depth (id : Id) : Nat := id.text.toList.count '.' + 1

end Id

end DiagramText
