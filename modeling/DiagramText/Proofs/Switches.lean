import DiagramText.Color.Reader
import DiagramText.Proofs.Accounting
import DiagramText.Session
import Mathlib.Data.List.Flatten
import Mathlib.Data.List.Perm.Basic

/-!
# Switching checks off

The checks look at the properties of a tree one by one, so what a choice of
checks reports is put together from what it reports about each property. The
check of styles says the same whether or not shapes are checked. The check of
shapes passes over paths into a style, which the check of styles reads, but
only as long as that check is on: a path such as `style.shape` is read as a
shape once it is off.
-/

set_option autoImplicit false

namespace DiagramText.Switches
open Validation Layout Accounting

variable {palette : Palette}

mutual

def visited (owner : Owner) : Tree → List (Owner × Tree)
  | .token _ => []
  | .node k s cs =>
    (if k = .property then [(owner, .node k s cs)] else []) ++
      visitedAll (ownerBelow owner (.node k s cs)) cs

def visitedAll (owner : Owner) : List Tree → List (Owner × Tree)
  | [] => []
  | c :: cs => visited owner c ++ visitedAll owner cs

end

theorem row_visited (palette : Palette) (checks : Checks) (xs : List Tree) : ∀ owner,
    diagnosticsAll palette checks owner xs =
      (visitedAll owner xs).flatMap fun v => checkProperty palette checks v.1 v.2 := by
  induction xs using forest_induction with
  | nil => exact fun _ => rfl
  | token t xs ih => exact ih
  | node k s cs xs ihc ih =>
    intro owner
    rw [diagnosticsAll, diagnosticsUnder, visitedAll, visited, ihc, ih, List.flatMap_append,
      List.flatMap_append]
    by_cases hk : k = .property <;> simp [hk]

theorem validate_visited (checks : Checks) (t : Tree) :
    validate palette checks t =
      (visited .nothing t).flatMap fun v => checkProperty palette checks v.1 v.2 := by
  have h := row_visited palette checks [t] .nothing
  simpa [validate, diagnosticsAll, visitedAll] using h

def styleCodes : List Code := [.unknownKeyword, .invalidStyleValue]

def shapeCodes : List Code := [.unknownShapeType]

/-- What the check of shapes says about a property whose path leads into a style, or about one
whose path does not. -/
def shapeReports (inStyle : Bool) (owner : Owner) (property : Tree) : List Diagnostic :=
  match property.key? with
  | none => []
  | some key =>
    if (styleAttribute? (fullPath owner key)).isSome = inStyle ∧
        endsInShape (fullPath owner key) = true then
      checkShape (fullPath owner key) property.value?
    else []

theorem nothing_reported (owner : Owner) (property : Tree) :
    checkProperty palette ⟨false, false⟩ owner property = [] := by
  unfold checkProperty
  cases property.key? with
  | none => rfl
  | some key => simp [checkPath]

theorem both_reported (owner : Owner) (property : Tree) :
    checkProperty palette ⟨true, true⟩ owner property =
      checkProperty palette ⟨true, false⟩ owner property ++ shapeReports false owner property := by
  unfold checkProperty shapeReports
  cases property.key? with
  | none => rfl
  | some key =>
    simp only [List.append_assoc, checkPath, if_true]
    cases styleAttribute? (fullPath owner key) <;> simp

theorem shapes_reported (owner : Owner) (property : Tree) :
    checkProperty palette ⟨false, true⟩ owner property =
      shapeReports false owner property ++ shapeReports true owner property := by
  unfold checkProperty shapeReports
  cases property.key? with
  | none => rfl
  | some key =>
    cases hs : styleAttribute? (fullPath owner key) <;> simp [checkPath, hs]

theorem coded_in {cs : List Code} {severity : Severity} {k : Code} {message : String} {span : Span}
    (h : k ∈ cs) : codeIn cs (.coded severity k message span) = true := by
  simpa [codeIn, Diagnostic.coded] using h

theorem connection_codes (key : Tree) :
    ∀ d ∈ checkConnectionKey key, codeIn styleCodes d = true := by
  intro d hd
  unfold checkConnectionKey at hd
  split at hd
  · simp at hd
  · split at hd
    · simp at hd
    · obtain rfl := List.mem_singleton.mp hd
      exact coded_in (by decide)

theorem style_codes (word : String) (key : Tree) (value : Option Tree) :
    ∀ d ∈ checkStyle palette word key value, codeIn styleCodes d = true := by
  intro d hd
  unfold checkStyle at hd
  split at hd
  · obtain rfl := List.mem_singleton.mp hd
    exact coded_in (by decide)
  · split at hd
    · simp at hd
    · split at hd
      · simp at hd
      · obtain rfl := List.mem_singleton.mp hd
        exact coded_in (by decide)

theorem mem_unless {known : Bool} {x d : Diagnostic} (h : d ∈ if known then [] else [x]) :
    d = x := by
  cases known <;> simp_all

theorem shape_codes (path : List String) (value : Option Tree) :
    ∀ d ∈ checkShape path value, codeIn shapeCodes d = true := by
  intro d hd
  unfold checkShape at hd
  split at hd
  · simp at hd
  · obtain rfl := mem_unless hd
    exact coded_in (by decide)

theorem styles_only_codes (owner : Owner) (property : Tree) :
    ∀ d ∈ checkProperty palette ⟨true, false⟩ owner property, codeIn styleCodes d = true := by
  intro d hd
  unfold checkProperty at hd
  split at hd
  · simp at hd
  · rcases List.mem_append.mp hd with hd | hd
    · split at hd
      · exact connection_codes _ d hd
      · simp at hd
    · unfold checkPath at hd
      split at hd
      · exact style_codes _ _ _ d hd
      · simp at hd

theorem shape_reports_codes (inStyle : Bool) (owner : Owner) (property : Tree) :
    ∀ d ∈ shapeReports inStyle owner property, codeIn shapeCodes d = true := by
  intro d hd
  unfold shapeReports at hd
  split at hd
  · simp at hd
  · split at hd
    · exact shape_codes _ _ d hd
    · simp at hd

theorem codes_apart (d : Diagnostic) (hs : codeIn styleCodes d = true) :
    codeIn shapeCodes d = false := by
  obtain ⟨k, hk, hmem⟩ := (Option.any_eq_true _ _).mp hs
  cases k <;> simp_all [codeIn, styleCodes, shapeCodes]

section

variable (owner : Owner) (property : Tree)

theorem both_styles :
    (checkProperty palette ⟨true, true⟩ owner property).filter (codeIn styleCodes) =
      checkProperty palette ⟨true, false⟩ owner property := by
  have hshapes : (shapeReports false owner property).filter (codeIn styleCodes) = [] := by
    rw [List.filter_eq_nil_iff]
    intro d hd hs
    have hno := codes_apart d hs
    rw [shape_reports_codes false owner property d hd] at hno
    simp at hno
  rw [both_reported, List.filter_append, hshapes, List.append_nil, List.filter_eq_self]
  exact styles_only_codes owner property

theorem both_shapes :
    (checkProperty palette ⟨true, true⟩ owner property).filter (codeIn shapeCodes) =
      shapeReports false owner property := by
  have hstyles :
      (checkProperty palette ⟨true, false⟩ owner property).filter (codeIn shapeCodes) = [] := by
    rw [List.filter_eq_nil_iff]
    intro d hd
    simp [codes_apart d (styles_only_codes owner property d hd)]
  rw [both_reported, List.filter_append, hstyles, List.nil_append, List.filter_eq_self]
  exact shape_reports_codes false owner property

end

/-- What the check of shapes alone says about paths into a style. -/
def misread (t : Tree) : List Diagnostic :=
  (visited .nothing t).flatMap fun v => shapeReports true v.1 v.2

theorem validate_styles (t : Tree) :
    (validate palette ⟨true, true⟩ t).filter (codeIn styleCodes) =
      validate palette ⟨true, false⟩ t := by
  rw [validate_visited, validate_visited, List.filter_flatMap]
  simp only [both_styles]

theorem validate_shapes (t : Tree) :
    (validate palette ⟨true, true⟩ t).filter (codeIn shapeCodes) =
      (visited .nothing t).flatMap fun v => shapeReports false v.1 v.2 := by
  rw [validate_visited, List.filter_flatMap]
  simp only [both_shapes]

theorem shapes_alone (palette : Palette) (t : Tree) :
    (validate palette ⟨false, true⟩ t).Perm
      ((validate palette ⟨true, true⟩ t).filter (codeIn shapeCodes) ++ misread t) := by
  rw [validate_shapes, misread, validate_visited]
  simp only [shapes_reported]
  exact (List.flatMap_append_perm _ _ _).symm

theorem shapes_alone_exact {t : Tree} (h : misread t = []) :
    validate palette ⟨false, true⟩ t =
      (validate palette ⟨true, true⟩ t).filter (codeIn shapeCodes) := by
  rw [validate_shapes, validate_visited]
  refine List.flatMap_congr fun v hv => ?_
  rw [shapes_reported, List.flatMap_eq_nil_iff.mp h v hv, List.append_nil]

theorem shapes_alone_codes (t : Tree) :
    (validate palette ⟨false, true⟩ t).filter (codeIn shapeCodes) =
      validate palette ⟨false, true⟩ t := by
  rw [List.filter_eq_self]
  intro d hd
  rw [validate_visited] at hd
  obtain ⟨v, -, hd⟩ := List.mem_flatMap.mp hd
  rw [shapes_reported] at hd
  rcases List.mem_append.mp hd with hd | hd <;> exact shape_reports_codes _ _ _ d hd

theorem nothing_misread {t : Tree} (h : (validate palette ⟨false, true⟩ t).length ≤
    ((validate palette ⟨true, true⟩ t).filter (codeIn shapeCodes)).length) : misread t = [] := by
  have hlength := (shapes_alone palette t).length_eq
  rw [List.length_append] at hlength
  exact List.length_eq_zero_iff.mp (by omega)

theorem styles_sublist (t : Tree) :
    (validate palette ⟨true, false⟩ t).Sublist (validate palette ⟨true, true⟩ t) := by
  rw [← validate_styles]
  exact List.filter_sublist

theorem validate_off (t : Tree) : validate palette ⟨false, false⟩ t = [] := by
  rw [validate_visited, List.flatMap_eq_nil_iff]
  exact fun v _ => nothing_reported v.1 v.2

/-- Every check of the first choice is on in the second. -/
def Fewer (c c' : Checks) : Prop :=
  (c.styles = true → c'.styles = true) ∧ (c.shapes = true → c'.shapes = true)

/-- How the reports about a tree depend on the choice of checks. -/
structure Switched (palette : Palette) (t : Tree) : Prop where
  styles : (validate palette ⟨true, true⟩ t).filter (codeIn styleCodes) =
    validate palette ⟨true, false⟩ t
  shapes : (validate palette ⟨true, true⟩ t).filter (codeIn shapeCodes) =
    validate palette ⟨false, true⟩ t ↔ misread t = []
  added : (validate palette ⟨false, true⟩ t).Perm
    ((validate palette ⟨true, true⟩ t).filter (codeIn shapeCodes) ++ misread t)
  fewer : ∀ c c', Fewer c c' → ((validate palette c t).Sublist (validate palette c' t) ↔
    c.styles = c'.styles ∨ c.shapes = false ∨ misread t = [])

theorem validate_switched (palette : Palette) (t : Tree) : Switched palette t := by
  have hmisread (h : (validate palette ⟨false, true⟩ t).Sublist (validate palette ⟨true, true⟩ t)) :
      misread t = [] := by
    have hfilter := h.filter (codeIn shapeCodes)
    rw [shapes_alone_codes] at hfilter
    exact nothing_misread hfilter.length_le
  refine ⟨validate_styles t, ⟨fun h => ?_, fun h => (shapes_alone_exact h).symm⟩,
    shapes_alone palette t, ?_⟩
  · exact nothing_misread (congrArg List.length h).ge
  · rintro ⟨styles, shapes⟩ ⟨styles', shapes'⟩ ⟨hstyles, hshapes⟩
    cases shapes with
    | false =>
      refine ⟨fun _ => .inr (.inl rfl), fun _ => ?_⟩
      cases styles with
      | false =>
        rw [validate_off]
        exact List.nil_sublist _
      | true =>
        obtain rfl : styles' = true := hstyles rfl
        cases shapes' with
        | false => exact List.Sublist.refl _
        | true => exact styles_sublist t
    | true =>
      obtain rfl : shapes' = true := hshapes rfl
      cases styles with
      | true =>
        obtain rfl : styles' = true := hstyles rfl
        exact ⟨fun _ => .inl rfl, fun _ => List.Sublist.refl _⟩
      | false =>
        cases styles' with
        | false => exact ⟨fun _ => .inl rfl, fun _ => List.Sublist.refl _⟩
        | true =>
          refine ⟨fun h => .inr (.inr (hmisread h)), fun h => ?_⟩
          have h : misread t = [] := by simpa using h
          rw [shapes_alone_exact h]
          exact List.filter_sublist

theorem style_shape_misread :
    ¬ (validate Color.read ⟨false, true⟩ (parse "a.style.shape: blob").tree).Sublist
        (validate Color.read ⟨true, true⟩ (parse "a.style.shape: blob").tree) ∧
      (validate Color.read ⟨true, true⟩ (parse "a.style.shape: blob").tree).filter
          (codeIn shapeCodes) ≠
        validate Color.read ⟨false, true⟩ (parse "a.style.shape: blob").tree := by
  decide +kernel

end DiagramText.Switches
