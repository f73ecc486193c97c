/-!
# Classes of code points

A class of characters is given by a list of closed code point intervals, and
membership is looked up by the character's number.
-/

set_option autoImplicit false

namespace DiagramText.Text

/-- The character lies in one of the closed intervals. -/
def within (intervals : List (Nat × Nat)) (c : Char) : Bool :=
  intervals.any fun i => i.1 ≤ c.toNat && c.toNat ≤ i.2

end DiagramText.Text
