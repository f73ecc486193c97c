import DiagramText.Proofs.Construction
import DiagramText.Proofs.Scanning
import DiagramText.Session

/-!
# What fails a document

Everything that the scanner and the grammar report is an error, whatever rule
reports it. Of the checks on a finished tree only the one of style values
reports errors. So a document passes when its text is read without a report
and no style has a value that it cannot take.
-/

set_option autoImplicit false

namespace DiagramText.Severities

theorem lexeme_errors (t : Token) (r : Lexeme.Reading) :
    ∀ d ∈ Lexeme.diagnostics t r, d.isError = true := by
  intro d hd
  unfold Lexeme.diagnostics at hd
  split at hd
  · next f =>
    obtain rfl : d = f.diagnostic t := by simpa using hd
    rfl
  · obtain ⟨e, -, rfl⟩ := List.mem_map.mp hd
    rfl
  · simp at hd

theorem tokenize_errors (text : String) : ∀ d ∈ (tokenize text).2, d.isError = true :=
  Scanning.tokenize_reports (fun t r _ => lexeme_errors t r) text

theorem parse_errors (text : String) : ∀ d ∈ (parse text).diagnostics, d.isError = true := by
  intro d hd
  rcases List.mem_append.mp hd with hd | hd
  · exact tokenize_errors text d hd
  · exact (Construction.document_complaints _ d hd).error

/-- The diagnostic is an error just when it is about the value of a style. -/
def Weighed (d : Diagnostic) : Prop := d.isError = true ↔ d.code = some .invalidStyleValue

theorem validate_weighed (palette : Palette) (checks : Checks) (t : Tree) :
    ∀ d ∈ validate palette checks t, Weighed d := by
  intro d hd
  obtain ⟨visit, -, hfinding⟩ := Complaints.validate_finds hd
  cases hfinding <;> simp [Weighed, Diagnostic.coded, Diagnostic.isError]

theorem check_settles (palette : Palette) (checks : Checks) (text : String) :
    (∃ p, check palette checks text = .ok p) ↔ (analyze palette checks text).hasErrors = false := by
  cases h : (analyze palette checks text).hasErrors <;> simp [check, h]

theorem check_passes (palette : Palette) (checks : Checks) (text : String) :
    (∃ p, check palette checks text = .ok p) ↔ (parse text).diagnostics = [] ∧
      ∀ d ∈ validate palette checks (parse text).tree, d.code ≠ some .invalidStyleValue := by
  rw [check_settles, Parse.hasErrors, Diagnostic.hasErrors, List.any_eq_false]
  constructor
  · intro h
    constructor
    · rw [List.eq_nil_iff_forall_not_mem]
      intro d hd
      exact h d (List.mem_append_left _ hd) (parse_errors text d hd)
    · intro d hd hcode
      exact h d (List.mem_append_right _ hd) ((validate_weighed palette checks _ d hd).mpr hcode)
  · rintro ⟨hparse, hstyle⟩ d hd herror
    rcases List.mem_append.mp hd with hd | hd
    · rw [hparse] at hd
      simp at hd
    · exact hstyle d hd ((validate_weighed palette checks _ d hd).mp herror)

end DiagramText.Severities
