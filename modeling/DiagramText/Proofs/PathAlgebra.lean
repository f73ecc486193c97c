import DiagramText.Id
import Mathlib.Data.List.TakeWhile

/-!
# Laws of dotted paths

Nesting, parents and depth all work on the flat text of a path. Whatever the
texts hold, dots at their ends, dots in a row or nothing at all, they fit
together: nesting is associative and adds up depths, the parent of a nested path
lies in its child, and a path has one parent less than it has segments.
-/

set_option autoImplicit false

namespace DiagramText.PathAlgebra

/-- The id that is left after going up some times. -/
def ascend : Nat → Id → Option Id
  | 0, id => some id
  | n + 1, id => id.parent?.bind (ascend n)

structure PathLaws : Prop where
  assoc : ∀ a b c : Id, (a.nest b).nest c = a.nest (b.nest c)
  pieces : ∀ a : Id, a.depth = (a.text.toList.splitOn '.').length
  depth : ∀ a b : Id, (a.nest b).depth = a.depth + b.depth
  parent_plain : ∀ a b : Id, '.' ∉ b.text.toList → (a.nest b).parent? = some a
  parent_dotted : ∀ a b : Id, '.' ∈ b.text.toList →
    ∃ p, b.parent? = some p ∧ (a.nest b).parent? = some (a.nest p)
  ascent : ∀ (a : Id) (n : Nat), (ascend n a).isSome = true ↔ n < a.depth

theorem nest_chars (a b : Id) : (a.nest b).text.toList = a.text.toList ++ '.' :: b.text.toList := by
  simp [Id.nest]

/-- A path with a dot has a last one. -/
theorem last_dot {id : Id} (h : '.' ∈ id.text.toList) :
    ∃ (p : Id) (last : List Char), id.text.toList = p.text.toList ++ '.' :: last ∧ '.' ∉ last := by
  obtain ⟨last, before, hsplit, hlast⟩ := List.eq_append_cons_of_mem (List.mem_reverse.mpr h)
  refine ⟨⟨.ofList before.reverse⟩, last.reverse, ?_, by simpa using hlast⟩
  rw [← List.reverse_reverse id.text.toList, hsplit]
  simp

theorem undotted {cs : List Char} (h : '.' ∉ cs) : ∀ c ∈ cs.reverse, decide (c ≠ '.') = true := by
  intro c hc
  rw [decide_eq_true_iff]
  rintro rfl
  exact h (List.mem_reverse.mp hc)

theorem before_last {before last : List Char} (h : '.' ∉ last) :
    Id.beforeLastDot? (before ++ '.' :: last) = some before := by
  rw [Id.beforeLastDot?, List.reverse_append, List.reverse_cons, List.append_assoc,
    List.dropWhile_append_of_pos (undotted h)]
  simp

theorem before_none {cs : List Char} (h : '.' ∉ cs) : Id.beforeLastDot? cs = none := by
  have hall : cs.reverse.dropWhile (fun c => decide (c ≠ '.')) = [] :=
    List.dropWhile_eq_nil_iff.mpr (undotted h)
  rw [Id.beforeLastDot?, hall]

theorem parent_spelled {id p : Id} {last : List Char}
    (h : id.text.toList = p.text.toList ++ '.' :: last) (hlast : '.' ∉ last) :
    id.parent? = some p := by
  rw [Id.parent?, h, before_last hlast, Option.map_some, String.ofList_toList]

theorem parent_none {id : Id} (h : '.' ∉ id.text.toList) : id.parent? = none := by
  rw [Id.parent?, before_none h]
  rfl

theorem parent_cases (id : Id) :
    id.parent? = none ∧ id.depth = 1 ∨ ∃ p, id.parent? = some p ∧ id.depth = p.depth + 1 := by
  by_cases h : '.' ∈ id.text.toList
  · obtain ⟨p, last, hsplit, hlast⟩ := last_dot h
    refine .inr ⟨p, parent_spelled hsplit hlast, ?_⟩
    rw [Id.depth, Id.depth, hsplit, List.count_append, List.count_cons_self,
      List.count_eq_zero_of_not_mem hlast]
  · refine .inl ⟨parent_none h, ?_⟩
    rw [Id.depth, List.count_eq_zero_of_not_mem h]

theorem ascend_iff (a : Id) (n : Nat) : (ascend n a).isSome = true ↔ n < a.depth := by
  induction n generalizing a with
  | zero => simp [ascend, Id.depth]
  | succ n ih =>
    rcases parent_cases a with ⟨hnone, hdepth⟩ | ⟨p, hp, hdepth⟩
    · simp [ascend, hnone, hdepth]
    · simp [ascend, hp, hdepth, ih]

theorem nest_assoc (a b c : Id) : (a.nest b).nest c = a.nest (b.nest c) := by
  simp [Id.nest, String.append_assoc]

theorem nest_depth (a b : Id) : (a.nest b).depth = a.depth + b.depth := by
  rw [Id.depth, Id.depth, Id.depth, nest_chars, List.count_append, List.count_cons_self]
  omega

theorem nest_plain {a b : Id} (h : '.' ∉ b.text.toList) : (a.nest b).parent? = some a :=
  parent_spelled (nest_chars a b) h

theorem nest_dotted {a b : Id} (h : '.' ∈ b.text.toList) :
    ∃ p, b.parent? = some p ∧ (a.nest b).parent? = some (a.nest p) := by
  obtain ⟨p, last, hsplit, hlast⟩ := last_dot h
  have hnest : (a.nest b).text.toList = (a.nest p).text.toList ++ '.' :: last := by
    rw [nest_chars, nest_chars, hsplit]
    simp
  exact ⟨p, parent_spelled hsplit hlast, parent_spelled hnest hlast⟩

theorem pieces_counted (cs : List Char) : (cs.splitOn '.').length = cs.count '.' + 1 := by
  induction cs with
  | nil => rfl
  | cons c cs ih =>
    rw [List.splitOn_cons_eq_if_modifyHead, List.count_cons]
    by_cases hc : (c == '.') = true
    · rw [if_pos hc, if_pos hc, List.length_cons, ih]
    · rw [if_neg hc, if_neg hc, List.length_modifyHead, ih]

theorem path_laws : PathLaws where
  assoc := nest_assoc
  pieces a := (pieces_counted a.text.toList).symm
  depth := nest_depth
  parent_plain _ _ := nest_plain
  parent_dotted _ _ := nest_dotted
  ascent := ascend_iff

end DiagramText.PathAlgebra
