/-!
# Widths of text

Offsets into a document count the bytes of its UTF-8 form; editor columns
count UTF-16 units. Both widths add up along a concatenation.
-/

set_option autoImplicit false

namespace DiagramText.Text

/-- Bytes of a run of characters in UTF-8. -/
def byteSize : List Char → Nat
  | [] => 0
  | c :: cs => c.utf8Size + byteSize cs

def unitSize (c : Char) : Nat :=
  if c.toNat < 0x10000 then 1 else 2

def unitsSize : List Char → Nat
  | [] => 0
  | c :: cs => unitSize c + unitsSize cs

@[simp]
theorem byteSize_nil : byteSize [] = 0 := rfl

@[simp]
theorem byteSize_cons (c : Char) (cs : List Char) :
    byteSize (c :: cs) = c.utf8Size + byteSize cs := rfl

@[simp]
theorem byteSize_append (xs ys : List Char) :
    byteSize (xs ++ ys) = byteSize xs + byteSize ys := by
  induction xs with
  | nil => simp
  | cons c xs ih => simp [ih, Nat.add_assoc]

@[simp]
theorem unitsSize_append (xs ys : List Char) :
    unitsSize (xs ++ ys) = unitsSize xs + unitsSize ys := by
  induction xs with
  | nil => simp [unitsSize]
  | cons c xs ih => simp [unitsSize, ih, Nat.add_assoc]

end DiagramText.Text
