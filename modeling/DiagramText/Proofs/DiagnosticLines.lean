import DiagramText.Proofs.Columns
import DiagramText.Proofs.DiagnosticOrder
import DiagramText.Proofs.Messages
import DiagramText.Proofs.Positions
import DiagramText.View

/-!
# The view of the diagnostics

The view has one entry for each report: the path, the line and column where its
primary span starts, and the report. Each entry is ended by a newline. As many
newlines as stand in the messages break entries into further lines, so the view
has one line for each report just when every message is on one line. Only a
check can break that, with a word or a value of the document that has a newline
in it.
-/

set_option autoImplicit false

namespace DiagramText.DiagnosticLines
open Text Scanning Ascent DiagnosticOrder Messages Positions Columns

def endedLines (cs : List Char) : List (List Char) := (LineIndex.lines cs).dropLast

theorem ended_length (cs : List Char) : (endedLines cs).length = cs.count '\n' := by
  rw [endedLines, LineIndex.lines, List.length_dropLast, pieces_length, Nat.add_sub_cancel]

theorem lines_ended {entries : List (List Char)} (h : ∀ e ∈ entries, '\n' ∉ e) :
    LineIndex.lines (entries.flatMap (· ++ ['\n'])) = entries ++ [[]] := by
  induction entries with
  | nil => rfl
  | cons e entries ih =>
    rw [List.forall_mem_cons] at h
    rw [LineIndex.lines] at ih ⊢
    rw [List.flatMap_cons, List.append_assoc, List.singleton_append, pieces_cut h.1, ih h.2,
      List.cons_append]

theorem ended_entries {entries : List (List Char)} (h : ∀ e ∈ entries, '\n' ∉ e) :
    endedLines (entries.flatMap (· ++ ['\n'])) = entries := by
  rw [endedLines, lines_ended h, List.dropLast_concat]

def breaks (text : String) : Nat := text.toList.count '\n'

theorem breaks_append (a b : String) : breaks (a ++ b) = breaks a + breaks b := by
  simp [breaks]

theorem breaks_eq_zero {text : String} : breaks text = 0 ↔ Unbroken text := List.count_eq_zero

/-- What the view says about a report: the path, the numbers of the line and column of the place
where the primary span starts, and the report. -/
def Announces (number : Nat → Nat) (path text : String) (d : Diagnostic) (entry : List Char) :
    Prop :=
  ∃ span before after, d.span? = some span ∧ text.toList = before ++ after ∧
    span.start = byteSize before ∧
    entry = (path ++ ":" ++ (number (before.count '\n')).repr ++ ":" ++
      (number (unitsSize (lastLine before))).repr ++ ": " ++ d.display).toList

def oneBased (n : Nat) : Nat := (UInt32.ofNat n + 1).toNat

theorem oneBased_small {n : Nat} (h : n + 1 < 2 ^ 32) : oneBased n = n + 1 := by
  rw [oneBased, UInt32.toNat_add, UInt32.toNat_ofNat_of_lt' (Nat.lt_of_succ_lt h)]
  exact Nat.mod_eq_of_lt h

section
variable {path text : String} {d : Diagnostic} {entry : List Char} {number : Nat → Nat}

theorem entry_plain (size : byteSize text.toList + 1 < 2 ^ 32)
    (h : Announces oneBased path text d entry) : Announces (· + 1) path text d entry := by
  obtain ⟨span, before, after, hspan, htext, hstart, rfl⟩ := h
  have hplace := congrArg byteSize htext
  obtain ⟨hline, hcolumn⟩ := started_bounded (before ++ after) (byteSize before)
  rw [started_place] at hline hcolumn
  rw [byteSize_append] at hplace hline hcolumn
  refine ⟨span, before, after, hspan, htext, hstart, ?_⟩
  rw [oneBased_small (by omega), oneBased_small (by omega)]

theorem display_front (d : Diagnostic) :
    ∃ front, Unbroken front ∧ d.display = front ++ d.message := by
  have hseverity : Unbroken d.severity.text := by cases d.severity <;> decide
  cases hcode : d.code with
  | none =>
    refine ⟨d.severity.text ++ "" ++ ": ", ?_, by rw [Diagnostic.display, hcode]⟩
    simp only [unbroken_append]
    exact ⟨⟨hseverity, by decide⟩, by decide⟩
  | some k =>
    have hk : Unbroken k.text := by cases k <;> decide
    refine ⟨d.severity.text ++ ("[" ++ k.text ++ "]") ++ ": ", ?_, ?_⟩
    · simp only [unbroken_append]
      exact ⟨⟨hseverity, ⟨by decide, hk⟩, by decide⟩, by decide⟩
    · rw [Diagnostic.display, hcode]

theorem entry_breaks (hpath : Unbroken path) (h : Announces number path text d entry) :
    entry.count '\n' = breaks d.message := by
  obtain ⟨span, before, after, -, -, -, rfl⟩ := h
  obtain ⟨front, hfront, hdisplay⟩ := display_front d
  have hplace (line column : Nat) :
      Unbroken (path ++ ":" ++ line.repr ++ ":" ++ column.repr ++ ": ") := by
    simp only [unbroken_append]
    exact ⟨⟨⟨⟨⟨hpath, by decide⟩, unbroken_nat line⟩, by decide⟩, unbroken_nat column⟩, by decide⟩
  rw [hdisplay]
  change breaks (_ ++ (front ++ d.message)) = _
  rw [breaks_append, breaks_eq_zero.mpr (hplace _ _), breaks_append, breaks_eq_zero.mpr hfront,
    Nat.zero_add, Nat.zero_add]

theorem located_start {phase : Code.Phase} {o : Nat} {cs : List Char} (h : Located cs phase d o) :
    ∃ span, d.span? = some span ∧ Boundary cs span.start := by
  obtain ⟨span, hspan, -⟩ := h.primary
  obtain ⟨label, hlabel, rfl⟩ := Option.map_eq_some_iff.mp hspan
  exact ⟨_, hspan, (h.labels label (List.mem_of_find?_eq_some hlabel)).start⟩

theorem line_entry (path : String) {phase : Code.Phase} {o : Nat}
    (h : Located text.toList phase d o) :
    ∃ entry, Announces oneBased path text d entry ∧
      (View.diagnosticLine path text.toList d).toList = entry ++ ['\n'] := by
  obtain ⟨span, hspan, before, after, htext, hstart⟩ := located_start h
  refine ⟨_, ⟨span, before, after, hspan, htext, hstart, rfl⟩, ?_⟩
  simp only [View.diagnosticLine, hspan, hstart, htext, position_place, Position.display,
    Position.ofNat, oneBased]
  simp

end

section
variable {path text : String} {ds : List Diagnostic} {entries : List (List Char)}
  {number : Nat → Nat}

theorem lines_entries (h : ∀ d ∈ ds, ∃ phase o, Located text.toList phase d o) (path : String) :
    ∃ entries, List.Forall₂ (Announces oneBased path text) ds entries ∧
      (View.diagnosticLines path text ds).toList = entries.flatMap (· ++ ['\n']) := by
  induction ds with
  | nil => exact ⟨[], .nil, rfl⟩
  | cons d ds ih =>
    rw [List.forall_mem_cons] at h
    obtain ⟨_, _, hd⟩ := h.1
    obtain ⟨entry, hentry, hline⟩ := line_entry path hd
    obtain ⟨entries, hentries, hlines⟩ := ih h.2
    refine ⟨entry :: entries, .cons hentry hentries, ?_⟩
    rw [View.diagnosticLines, String.toList_join] at hlines ⊢
    rw [List.map_cons, List.flatMap_cons, hlines, hline, List.flatMap_cons]

theorem entries_breaks (hpath : Unbroken path)
    (h : List.Forall₂ (Announces number path text) ds entries) :
    (entries.flatMap (· ++ ['\n'])).count '\n' =
      ds.length + (ds.flatMap fun d => d.message.toList).count '\n' := by
  induction h with
  | nil => rfl
  | cons hentry _ ih =>
    rw [List.flatMap_cons, List.count_append, List.count_append, ih, entry_breaks hpath hentry,
      List.flatMap_cons, List.count_append, List.length_cons, breaks, List.count_singleton_self]
    omega

theorem entries_unbroken (hpath : Unbroken path)
    (h : List.Forall₂ (Announces number path text) ds entries)
    (hds : ∀ d ∈ ds, Unbroken d.message) : ∀ e ∈ entries, '\n' ∉ e := by
  induction h with
  | nil => simp
  | cons hentry _ ih =>
    rw [List.forall_mem_cons] at hds ⊢
    refine ⟨?_, ih hds.2⟩
    rw [← List.count_eq_zero, entry_breaks hpath hentry, breaks_eq_zero]
    exact hds.1

theorem ended_lines (hpath : Unbroken path)
    (h : List.Forall₂ (Announces number path text) ds entries) :
    endedLines (entries.flatMap (· ++ ['\n'])) = entries ↔ ∀ d ∈ ds, Unbroken d.message := by
  constructor
  · -- as many lines as reports leave no newline for the messages
    intro hrows
    have hlength := congrArg List.length hrows
    rw [ended_length, entries_breaks hpath h, ← h.length_eq] at hlength
    have hnone : (ds.flatMap fun d => d.message.toList).count '\n' = 0 := by omega
    intro d hd hmem
    exact List.count_eq_zero.mp hnone (List.mem_flatMap.mpr ⟨d, hd, hmem⟩)
  · intro hds
    exact ended_entries (entries_unbroken hpath h hds)

end

/-- The view of the diagnostics of an analysed document. -/
def view (palette : Palette) (checks : Checks) (path text : String) : List Char :=
  (View.render path text (analyze palette checks text) .diagnostics).toList

/-- How the view of a document's diagnostics is made up, and which reports can break its lines. -/
structure Listed (palette : Palette) (checks : Checks) (path text : String)
    (entries : List (List Char)) : Prop where
  reports : List.Forall₂ (Announces oneBased path text)
    (analyze palette checks text).diagnostics entries
  numbers : byteSize text.toList + 1 < 2 ^ 32 →
    List.Forall₂ (Announces (· + 1) path text) (analyze palette checks text).diagnostics entries
  ended : view palette checks path text = entries.flatMap (· ++ ['\n'])
  count : (endedLines (view palette checks path text)).length =
    (analyze palette checks text).diagnostics.length +
    ((analyze palette checks text).diagnostics.flatMap fun d => d.message.toList).count '\n'
  lines : endedLines (view palette checks path text) = entries ↔
    ∀ d ∈ (analyze palette checks text).diagnostics, Unbroken d.message
  reading : ∀ d ∈ (parse text).diagnostics, Unbroken d.message
  properties : OneLined palette →
    (∀ visit ∈ Switches.visited .nothing (parse text).tree, OneLine visit.1 visit.2) →
    endedLines (view palette checks path text) = entries

theorem view_listed (palette : Palette) (checks : Checks) (path text : String)
    (hpath : Unbroken path) : ∃ entries, Listed palette checks path text entries := by
  have hlocated : ∀ d ∈ (analyze palette checks text).diagnostics,
      ∃ phase o, Located text.toList phase d o := fun d hd => analyze_located hd
  obtain ⟨entries, hentries, hview⟩ := lines_entries hlocated path
  have hended : view palette checks path text = entries.flatMap (· ++ ['\n']) := hview
  have hlines := ended_lines hpath hentries
  rw [← hended] at hlines
  have hreading := parse_unbroken text
  refine ⟨entries, hentries, fun size => hentries.imp fun _ _ => entry_plain size, hended, ?_,
    hlines, hreading, fun hpalette hvisits => hlines.mpr ?_⟩
  · rw [ended_length, hended, entries_breaks hpath hentries]
  · intro d hd
    rcases List.mem_append.mp hd with hd | hd
    · exact hreading d hd
    · obtain ⟨visit, hvisit, hfinding⟩ := Complaints.validate_finds hd
      exact finding_unbroken hpalette hfinding (hvisits visit hvisit)

theorem view_listed_unknown_shape :
    Unbroken "in.d2" ∧ OneLined Color.read ∧
      ∃ entries, Listed Color.read {} "in.d2" "a.shape: blob" entries :=
  ⟨by decide, read_one_lined, view_listed Color.read {} "in.d2" "a.shape: blob" (by decide)⟩

theorem shape_breaks_line :
    Unbroken "in.d2" ∧ (analyze Color.read {} "a.shape: \"x\\ny\"").diagnostics.length = 1 ∧
      (endedLines (view Color.read {} "in.d2" "a.shape: \"x\\ny\"")).length = 2 := by
  decide +kernel

end DiagramText.DiagnosticLines
