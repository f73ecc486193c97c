import DiagramText.Proofs.Shapes

/-!
# Two ways to build a path

A path becomes an id by joining its segments or by nesting them one by one, as
the outline does. Joining writes no dot while the text is still empty, so it
loses the empty segments at the head of a path; nesting keeps them. The two
agree exactly when the first segment is not empty or stands alone.
-/

set_option autoImplicit false

namespace DiagramText.PathJoining
open Mentions Reach Shapes DiagramText.Tree

def nestAll (s : String) (rest : List String) : Id :=
  rest.foldl (fun id segment => id.nest ⟨segment⟩) ⟨s⟩

structure Compared (s : String) (rest : List String) : Prop where
  agree : Id.ofSegments (s :: rest) = nestAll s rest ↔ s ≠ "" ∨ rest = []
  nested : nestAll s rest = idOf (s :: rest)
  joined : Id.ofSegments (s :: rest) = idOf ((s :: rest).dropWhile (· = ""))

/-- The outline has the shape under its nested id, and under its own one where the two agree. -/
structure Entered (o : Outline) (p : Tree) (s : String) (rest : List String) : Prop where
  nested : (o.shape? (nestAll s rest)).isSome = true
  joined : s ≠ "" ∨ rest = [] → (o.shape? p.id).isSome = true

theorem nestAll_spelled (s : String) (rest : List String) : nestAll s rest = idOf (s :: rest) := by
  induction rest using List.reverseRecOn with
  | nil => simp [nestAll, idOf]
  | append_singleton rest t ih =>
    rw [← List.cons_append, idOf_snoc (List.cons_ne_nil _ _), ← ih]
    simp [nestAll]

theorem join_onto {joined : String} (h : joined ≠ "") (rest : List String) :
    rest.foldl (fun joined s => if joined.isEmpty then s else joined ++ "." ++ s) joined =
      ".".intercalate (joined :: rest) := by
  induction rest generalizing joined with
  | nil => simp
  | cons s rest ih =>
    have hstep : (if joined.isEmpty then s else joined ++ "." ++ s) = joined ++ "." ++ s := by
      simp [h]
    rw [List.foldl_cons, hstep, ih (by simp), String.intercalate_cons_cons]
    cases rest with
    | nil => simp
    | cons t rest => simp [String.intercalate_cons_cons, String.append_assoc]

theorem join_spelled (segments : List String) :
    Id.ofSegments segments = idOf (segments.dropWhile (· = "")) := by
  induction segments with
  | nil => rfl
  | cons s rest ih =>
    by_cases hs : s = ""
    · rw [List.dropWhile_cons_of_pos (by simp [hs]), ← ih, hs]
      rfl
    · rw [List.dropWhile_cons_of_neg (by simp [hs]), idOf, ← join_onto hs rest]
      rfl

theorem skip_length (segments : List String) :
    (idOf (segments.dropWhile (· = ""))).text.length ≤ (idOf segments).text.length := by
  induction segments with
  | nil => exact Nat.le_refl _
  | cons s rest ih =>
    by_cases hs : s = ""
    · rw [List.dropWhile_cons_of_pos (by simp [hs]), hs]
      refine ih.trans ?_
      cases rest <;> simp [idOf, String.intercalate_cons_cons]
    · rw [List.dropWhile_cons_of_neg (by simp [hs])]

theorem join_nest_iff (s : String) (rest : List String) :
    Id.ofSegments (s :: rest) = nestAll s rest ↔ s ≠ "" ∨ rest = [] := by
  rw [join_spelled, nestAll_spelled]
  by_cases hs : s = ""
  · subst hs
    cases rest with
    | nil => simp [idOf]
    | cons t rest =>
      have hshort := skip_length (t :: rest)
      have hlong : (idOf ("" :: t :: rest)).text.length = (idOf (t :: rest)).text.length + 1 := by
        have hdot : ".".length = 1 := rfl
        simp [idOf, String.intercalate_cons_cons, hdot, Nat.add_comm]
      have hne : idOf (("" :: t :: rest).dropWhile (· = "")) ≠ idOf ("" :: t :: rest) := by
        intro heq
        rw [List.dropWhile_cons_of_pos (by simp)] at heq
        rw [heq] at hshort
        omega
      exact iff_of_false hne (by simp)
  · simp [List.dropWhile_cons_of_neg, hs]

theorem builders_compared (text : String) :
    (∀ s rest, Compared s rest) ∧
      ∀ d p s rest, .shape d ∈ (parse text).tree.statements → d.shapePath? = some p →
        p.segments = s :: rest → Entered (Outline.ofTree (parse text).tree) p s rest := by
  refine ⟨fun s rest => ⟨join_nest_iff s rest, nestAll_spelled s rest, join_spelled _⟩, ?_⟩
  intro d p s rest hd hp hs
  have hlisted := @named_listed text [] p.segments _ p .refl (.shape hd hp)
  rw [List.nil_append, hs, ← nestAll_spelled] at hlisted
  refine ⟨hlisted, fun hagree => ?_⟩
  rwa [Tree.id, hs, (join_nest_iff s rest).mpr hagree]

theorem empty_end_entered :
    let root := (parse "a.\"\"").tree
    let d := root.elements.get ⟨0, by decide +kernel⟩
    ∃ p, .shape d ∈ root.statements ∧ d.shapePath? = some p ∧ p.segments = ["a", ""] ∧
      Entered (Outline.ofTree root) p "a" [""] := by
  intro root d
  have hd : .shape d ∈ root.statements :=
    mem_statements.mpr ⟨List.get_mem _ _, by decide +kernel⟩
  obtain ⟨p, hp, hs⟩ : ∃ p, d.shapePath? = some p ∧ p.segments = ["a", ""] := by
    have hpath : d.shapePath?.map Tree.segments = some ["a", ""] := by decide +kernel
    exact Option.map_eq_some_iff.mp hpath
  exact ⟨p, hd, hp, hs, (builders_compared "a.\"\"").2 d p "a" [""] hd hp hs⟩

theorem empty_head_skipped :
    Id.ofSegments ["", "a"] = ⟨"a"⟩ ∧ nestAll "" ["a"] = ⟨".a"⟩ ∧
      (∃ d ∈ (parse "\"\".a").tree.statements, d.name = "Shape" ∧
        d.tree.shapePath?.map Tree.id = some ⟨"a"⟩) ∧
      (Outline.ofTree (parse "\"\".a").tree).shape? ⟨"a"⟩ = none := by
  refine ⟨by decide +kernel, by decide +kernel, ?_, by decide +kernel⟩
  have hfound : (parse "\"\".a").tree.statements.any (fun d =>
      d.name = "Shape" && d.tree.shapePath?.map Tree.id = some ⟨"a"⟩) = true := by
    decide +kernel
  simpa using hfound

end DiagramText.PathJoining
