import DiagramText.Proofs.Lines

/-!
# Chunks at the ends of lines

A pruned text lacks some chunks that start with a given character and stand at
the end of a line. Whatever a scanner measures that neither this character nor
a newline goes on is the same in both texts, since a newline or the end stands
where the chunk was.
-/

set_option autoImplicit false

namespace DiagramText.Pruning
open Text Lexeme Lines

/-- The text is over or goes on with a newline. -/
def LineEnd : List Char → Prop
  | [] => True
  | c :: _ => c = '\n'

/-- The second text is the first without some chunks that start with the head and stand in front
of the end of a line. -/
inductive Pruned (head : Char) : List Char → List Char → Prop where
  | nil : Pruned head [] []
  | keep (c : Char) {cs ds : List Char} (rest : Pruned head cs ds) :
      Pruned head (c :: cs) (c :: ds)
  | cut (xs : List Char) {cs ds : List Char} (ends : LineEnd cs) (rest : Pruned head cs ds) :
      Pruned head (head :: (xs ++ cs)) ds

variable {head : Char} {cs ds : List Char}

theorem pruned_end (hn : head ≠ '\n') (h : Pruned head cs ds) (hend : LineEnd cs) :
    LineEnd ds := by
  cases h with
  | nil => trivial
  | keep c rest => exact hend
  | cut => exact absurd hend hn

theorem pruned_append (xs : List Char) (h : Pruned head cs ds) :
    Pruned head (xs ++ cs) (xs ++ ds) := by
  induction xs with
  | nil => exact h
  | cons x xs ih => exact .keep x ih

/-- The first character stays, or it starts a chunk at the end of a line. -/
theorem pruned_cons {c : Char} (hn : head ≠ '\n') (h : Pruned head (c :: cs) ds) :
    (∃ es, ds = c :: es ∧ Pruned head cs es) ∨ c = head ∧ LineEnd ds := by
  cases h with
  | keep _ rest => exact .inl ⟨_, rfl, rest⟩
  | cut xs ends rest => exact .inr ⟨rfl, pruned_end hn rest ends⟩

theorem end_run {p : Char → Bool} (hp : p '\n' = false) (h : LineEnd cs) :
    cs.takeWhile p = [] := by
  cases cs with
  | nil => rfl
  | cons c cs =>
    obtain rfl : c = '\n' := h
    simp [hp]

theorem run_pruned {p : Char → Bool} (hp : p head = false) (newline : p '\n' = false)
    (hn : head ≠ '\n') (h : Pruned head cs ds) : ds.takeWhile p = cs.takeWhile p := by
  induction h with
  | nil => rfl
  | keep c rest ih => rw [List.takeWhile_cons, List.takeWhile_cons, ih]
  | cut xs ends rest ih =>
    rw [end_run newline (pruned_end hn rest ends), List.takeWhile_cons, hp]
    rfl

theorem line_drop (cs : List Char) : LineEnd (cs.drop (lineLength cs)) := by
  induction cs with
  | nil => trivial
  | cons c cs ih =>
    by_cases hc : c = '\n'
    · subst hc
      simp [lineLength, LineEnd]
    · simpa [lineLength, hc] using ih

theorem line_take (cs : List Char) : '\n' ∉ cs.take (lineLength cs) := by
  rw [lineLength, ← List.prefix_iff_eq_take.mp (List.takeWhile_prefix _)]
  intro h
  simpa using List.mem_takeWhile_imp h

theorem read_either {s s' : Scanner} {c : Char} {cs : List Char} (hr : s.rest = c :: cs)
    (h : s'.afterWord = s.afterWord ∨ LineEnd s.rest) (unclosed : List Nat) (ds : List Char) :
    Lexeme.read s'.afterWord unclosed c ds = Lexeme.read s.afterWord unclosed c ds := by
  rcases h with h | h
  · rw [h]
  · rw [hr] at h
    obtain rfl : c = '\n' := h
    rfl

theorem pattern_end {pattern : List Char} (newline : '\n' ∉ pattern) (hne : pattern ≠ [])
    (h : LineEnd cs) : pattern.isPrefixOf cs = false := by
  cases pattern with
  | nil => exact absurd rfl hne
  | cons d pattern =>
    cases cs with
    | nil => rfl
    | cons c cs =>
      obtain rfl : c = '\n' := h
      have hd : d ≠ '\n' := fun hd => newline (by simp [hd])
      simp [List.isPrefixOf, hd]

theorem prefix_pruned (pattern : List Char) (hp : head ∉ pattern) (newline : '\n' ∉ pattern)
    (hn : head ≠ '\n') (h : Pruned head cs ds) : pattern.isPrefixOf ds = pattern.isPrefixOf cs := by
  induction h generalizing pattern with
  | nil => rfl
  | keep c rest ih =>
    cases pattern with
    | nil => rfl
    | cons d pattern =>
      rw [List.isPrefixOf, List.isPrefixOf, ih]
      · exact fun hd => hp (List.mem_cons_of_mem d hd)
      · exact fun hd => newline (List.mem_cons_of_mem d hd)
  | cut xs ends rest ih =>
    cases pattern with
    | nil => simp [List.isPrefixOf]
    | cons d pattern =>
      have hd : d ≠ head := fun hd => hp (by simp [hd])
      rw [pattern_end newline (List.cons_ne_nil d pattern) (pruned_end hn rest ends)]
      simp [List.isPrefixOf, hd]

theorem index_suffix {pattern : List Char} (xs : List Char)
    (h : indexOf? pattern (xs ++ cs) = none) : indexOf? pattern cs = none := by
  induction xs with
  | nil => exact h
  | cons x xs ih =>
    rw [List.cons_append, indexOf?] at h
    split at h
    · simp at h
    · exact ih (Option.map_eq_none_iff.mp h)

theorem index_pruned {pattern : List Char} (hp : head ∉ pattern) (newline : '\n' ∉ pattern)
    (hn : head ≠ '\n') (h : Pruned head cs ds) (hnone : indexOf? pattern cs = none) :
    indexOf? pattern ds = none := by
  induction h with
  | nil => exact hnone
  | @keep c cs ds rest ih =>
    rw [indexOf?, prefix_pruned pattern hp newline hn (.keep c rest)]
    rw [indexOf?] at hnone
    split at hnone
    · simp at hnone
    · next hfits =>
      rw [if_neg hfits, ih (Option.map_eq_none_iff.mp hnone)]
      rfl
  | cut xs ends rest ih => exact ih (index_suffix (head :: xs) hnone)

theorem drop_pruned {p : Char → Bool} (hp : p head = false) (h : Pruned head cs ds) {n : Nat}
    (hle : n ≤ (cs.takeWhile p).length) : Pruned head (cs.drop n) (ds.drop n) := by
  induction h generalizing n with
  | nil => simpa using Pruned.nil
  | keep c rest ih =>
    cases n with
    | zero => exact .keep c rest
    | succ n =>
      rw [List.takeWhile_cons] at hle
      split at hle
      · exact ih (Nat.le_of_succ_le_succ hle)
      · simp at hle
  | cut xs ends rest ih =>
    obtain rfl : n = 0 := by simpa [hp] using hle
    exact .cut xs ends rest

theorem word_end (h : LineEnd cs) : wordLength cs = 0 := by
  have hn : isWordChar '\n' = false := by decide
  cases cs with
  | nil => rfl
  | cons c cs =>
    obtain rfl : c = '\n' := h
    rw [word_step (by decide), hn]
    rfl

theorem word_pruned (hw : isWordChar head = false) (hh : head ≠ '-') (hn : head ≠ '\n')
    (h : Pruned head cs ds) : wordLength ds = wordLength cs := by
  have hnewline : isWordChar '\n' = false := by decide
  fun_induction wordLength cs generalizing ds with
  | case1 c cs hc ih =>
    obtain ⟨es, rfl, hrest⟩ := (pruned_cons hn h).resolve_right fun h => hh h.1.symm
    rcases pruned_cons hn hrest with ⟨fs, rfl, hafter⟩ | ⟨rfl, -⟩
    · rw [wordLength, if_pos hc, ih hafter]
    · simp [hw] at hc
  | case2 c cs hc =>
    obtain ⟨es, rfl, hrest⟩ := (pruned_cons hn h).resolve_right fun h => hh h.1.symm
    rcases pruned_cons hn hrest with ⟨fs, rfl, -⟩ | ⟨rfl, hend⟩
    · rw [wordLength, if_neg hc]
    · -- a hyphen at the end of a line joins nothing
      cases es with
      | nil => rfl
      | cons e es =>
        obtain rfl : e = '\n' := hend
        rw [wordLength, hnewline]
        rfl
  | case3 c cs hne hc ih =>
    rcases pruned_cons hn h with ⟨es, rfl, hrest⟩ | ⟨rfl, -⟩
    · have hhyphen : c ≠ '-' := by
        rintro rfl
        exact absurd hc (by decide)
      rw [word_step hhyphen, if_pos hc, ih hrest]
    · simp [hw] at hc
  | case4 c cs hne hc =>
    rcases pruned_cons hn h with ⟨es, rfl, hrest⟩ | ⟨-, hend⟩
    · by_cases hhyphen : c = '-'
      · subst hhyphen
        cases cs with
        | nil =>
          cases hrest
          rfl
        | cons d ds => exact absurd rfl (hne d ds rfl)
      · rw [word_step hhyphen, if_neg hc]
    · exact word_end hend
  | case5 =>
    cases h
    rfl

theorem connector_pruned (hh : head ≠ '-') (hg : head ≠ '>') (hn : head ≠ '\n') (c : Char)
    (h : Pruned head cs ds) : connector? c ds = connector? c cs := by
  have hlong := prefix_pruned ['-', '>'] (by simp [hh, hg]) (by decide) hn h
  have hhyphen := prefix_pruned ['-'] (by simp [hh]) (by decide) hn h
  have hgreater := prefix_pruned ['>'] (by simp [hg]) (by decide) hn h
  simp only [connector?, hlong, hhyphen, hgreater]

theorem pipe_run_pruned (hp : head ≠ '|') (hn : head ≠ '\n') (h : Pruned head cs ds) :
    Literal.pipeRun ('|' :: ds) = Literal.pipeRun ('|' :: cs) := by
  have hrun := run_pruned (p := (· == '|')) (beq_eq_false_iff_ne.mpr hp) rfl hn (.keep '|' h)
  rw [Literal.pipeRun, Literal.pipeRun, hrun]

theorem pipe_run_bound (cs : List Char) :
    Literal.pipeRun ('|' :: cs) - 1 ≤ (cs.takeWhile (· == '|')).length := by
  simp only [Literal.pipeRun, List.takeWhile_cons, beq_self_eq_true, if_true, List.length_cons]
  omega

theorem pipe_pattern {d : Char} (hd : d ≠ '|') (n : Nat) : d ∉ List.replicate n '|' := fun hmem =>
  hd (List.eq_of_mem_replicate hmem)

end DiagramText.Pruning
