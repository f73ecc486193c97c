import DiagramText.Tree.Path
import Mathlib.Data.List.TakeWhile

/-!
# Both ends of a row

A text is trimmed of its blanks and a piece of a path of its trivia in one way:
from both ends the members that pass a test are taken off, up to the first and
the last that do not.
-/

set_option autoImplicit false

namespace DiagramText.Ends
variable {α : Type} {p : α → Bool} {xs ys : List α}

/-- The row between its first and its last member that fail the test. -/
def stripped (p : α → Bool) (xs : List α) : List α :=
  ((xs.dropWhile p).reverse.dropWhile p).reverse

theorem trim_blanks (cs : List Char) : Text.trim cs = stripped Text.isBlank cs := rfl

theorem trim_trivia (ts : List Token) : Segment.trimTrivia ts = stripped (·.isTrivia) ts := rfl

theorem stripped_split (p : α → Bool) (xs : List α) :
    ∃ front back, xs = front ++ stripped p xs ++ back ∧
      (∀ x ∈ front, p x = true) ∧ ∀ x ∈ back, p x = true := by
  refine ⟨xs.takeWhile p, ((xs.dropWhile p).reverse.takeWhile p).reverse, ?_,
    fun x hx => List.mem_takeWhile_imp hx,
    fun x hx => List.mem_takeWhile_imp (List.mem_reverse.mp hx)⟩
  rw [List.append_assoc, stripped, ← List.reverse_append, List.takeWhile_append_dropWhile,
    List.reverse_reverse, List.takeWhile_append_dropWhile]

theorem stripped_mem {x : α} (h : x ∈ stripped p xs) : x ∈ xs := by
  obtain ⟨front, back, hsplit, -, -⟩ := stripped_split p xs
  rw [hsplit]
  exact List.mem_append_left _ (List.mem_append_right _ h)

theorem stripped_keeps {x : α} (h : x ∈ xs) (hx : p x = false) : x ∈ stripped p xs := by
  obtain ⟨front, back, hsplit, hfront, hback⟩ := stripped_split p xs
  rw [hsplit, List.mem_append, List.mem_append] at h
  rcases h with (h | h) | h
  · simp [hfront x h] at hx
  · exact h
  · simp [hback x h] at hx

theorem filter_stripped {q : α → Bool} (h : ∀ x, p x = true → q x = false) (xs : List α) :
    (stripped p xs).filter q = xs.filter q := by
  obtain ⟨front, back, hsplit, hfront, hback⟩ := stripped_split p xs
  have hnone {ys : List α} (hys : ∀ x ∈ ys, p x = true) : ys.filter q = [] :=
    List.filter_eq_nil_iff.mpr fun x hx => by simp [h x (hys x hx)]
  calc (stripped p xs).filter q
    _ = (front ++ stripped p xs ++ back).filter q := by
      rw [List.filter_append, List.filter_append, hnone hfront, hnone hback, List.nil_append,
        List.append_nil]
    _ = xs.filter q := by rw [← hsplit]

theorem stripped_before (h : ∀ x ∈ ys, p x = true) (xs : List α) :
    stripped p (ys ++ xs) = stripped p xs := by
  rw [stripped, stripped, List.dropWhile_append_of_pos h]

theorem stripped_after (h : ∀ x ∈ ys, p x = true) (xs : List α) :
    stripped p (xs ++ ys) = stripped p xs := by
  have hall : ys.dropWhile p = [] := List.dropWhile_eq_nil_iff.mpr h
  have hreverse : ∀ x ∈ ys.reverse, p x = true := fun x hx => h x (List.mem_reverse.mp hx)
  rw [stripped, stripped, List.dropWhile_append]
  split
  · next hempty =>
    rw [List.isEmpty_iff] at hempty
    rw [hempty, hall]
  · rw [List.reverse_append, List.dropWhile_append_of_pos hreverse]

theorem stripped_solid (hhead : ∀ x ∈ xs.head?, p x = false)
    (hlast : ∀ x ∈ xs.getLast?, p x = false) : stripped p xs = xs := by
  have hstays {ys : List α} (h : ∀ x ∈ ys.head?, p x = false) : ys.dropWhile p = ys := by
    cases ys with
    | nil => rfl
    | cons y ys => exact List.dropWhile_cons_of_neg (by simp [h y rfl])
  rw [stripped, hstays hhead, hstays (by simpa using hlast), List.reverse_reverse]

end DiagramText.Ends
