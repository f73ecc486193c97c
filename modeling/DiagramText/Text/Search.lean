/-!
# Searching a text

The number of characters before the first occurrence of a pattern, and the
pieces between separators.
-/

set_option autoImplicit false

namespace DiagramText.Text

def indexOf? (pattern : List Char) : List Char → Option Nat
  | [] => if pattern.isEmpty then some 0 else none
  | c :: cs =>
    if pattern.isPrefixOf (c :: cs) then some 0 else (indexOf? pattern cs).map (· + 1)

theorem indexOf?_eq_none_iff {pattern cs : List Char} :
    indexOf? pattern cs = none ↔ ¬pattern <:+: cs := by
  induction cs with
  | nil => simp [indexOf?]
  | cons c cs ih =>
    rw [indexOf?, List.infix_cons_iff, not_or, ← ih]
    by_cases hp : pattern <+: c :: cs <;> simp [hp]

theorem indexOf?_eq_some_iff {pattern cs : List Char} {n : Nat} :
    indexOf? pattern cs = some n ↔
      pattern <+: cs.drop n ∧ ∀ m < n, ¬pattern <+: cs.drop m := by
  induction cs generalizing n with
  | nil =>
    cases n with
    | zero => by_cases hp : pattern = [] <;> simp [indexOf?, hp]
    | succ n =>
      rw [Nat.forall_lt_succ_left]
      by_cases hp : pattern = [] <;> simp [indexOf?, hp]
  | cons c cs ih =>
    rw [indexOf?]
    cases n with
    | zero => by_cases hp : pattern <+: c :: cs <;> simp [hp]
    | succ n =>
      rw [Nat.forall_lt_succ_left]
      by_cases hp : pattern <+: c :: cs <;> simp [hp, ih]

theorem indexOf?_take {pattern cs : List Char} {n : Nat} (h : indexOf? pattern cs = some n) :
    indexOf? pattern (cs.take (n + pattern.length)) = some n := by
  obtain ⟨hstands, hfirst⟩ := indexOf?_eq_some_iff.mp h
  refine indexOf?_eq_some_iff.mpr ⟨?_, fun m hm hagain => hfirst m hm ?_⟩
  · rw [List.drop_take, Nat.add_sub_cancel_left]
    exact List.prefix_take_iff.mpr ⟨hstands, Nat.le_refl _⟩
  · rw [List.drop_take] at hagain
    exact hagain.trans (List.take_prefix _ _)

/-- The pieces between separators; a separator at the end leaves an empty piece. -/
def pieces (separator : Char) : List Char → List (List Char)
  | [] => [[]]
  | c :: cs =>
    match pieces separator cs with
    | [] => [[c]]
    | piece :: rest => if c = separator then [] :: piece :: rest else (c :: piece) :: rest

def lineLength (cs : List Char) : Nat := (cs.takeWhile (· ≠ '\n')).length

end DiagramText.Text
