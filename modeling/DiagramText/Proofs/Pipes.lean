import DiagramText.Proofs.Scanning

/-!
# Unclosed pipes

A run of pipes opens a block literal when the same run stands again further on.
The scanner remembers the lengths for which it found none and does not look a
second time. Nothing closes such a run later, so a scanner that remembers
nothing and looks every time reads the same tokens.
-/

set_option autoImplicit false

namespace DiagramText.Pipes
open Text Lexeme Scanning
open Literal (pipeRun)

def delimiter (cs : List Char) : List Char := List.replicate (pipeRun cs) '|'

def ClosedAt (cs : List Char) (n : Nat) : Prop := delimiter cs <+: cs.drop (pipeRun cs + n)

theorem pipeRun_pos (cs : List Char) : 0 < pipeRun ('|' :: cs) := by
  simp [pipeRun]

theorem drop_opening (cs : List Char) (n : Nat) :
    (cs.drop (pipeRun ('|' :: cs) - 1)).drop n =
      ('|' :: cs).drop (pipeRun ('|' :: cs) + n) := by
  have hpos := pipeRun_pos cs
  obtain ⟨k, hk⟩ := Nat.exists_eq_succ_of_ne_zero hpos.ne'
  rw [hk, List.drop_drop, Nat.succ_add, List.drop_succ_cons, Nat.succ_sub_one]

theorem closing_none {cs : List Char} :
    closingPipes? cs = none ↔
      ¬delimiter ('|' :: cs) <:+: cs.drop (pipeRun ('|' :: cs) - 1) := by
  rw [closingPipes?, Option.map_eq_none_iff, indexOf?_eq_none_iff, delimiter]

theorem closing_none_iff {cs : List Char} :
    closingPipes? cs = none ↔ ∀ n, ¬ClosedAt ('|' :: cs) n := by
  constructor
  · intro h n hn
    rw [ClosedAt, ← drop_opening] at hn
    exact closing_none.mp h (hn.isInfix.trans (List.drop_suffix _ _).isInfix)
  · intro h
    refine closing_none.mpr fun hagain => ?_
    obtain ⟨tail, hstarts, front, hsplit⟩ := List.infix_iff_prefix_suffix.mp hagain
    apply h front.length
    rw [ClosedAt, ← drop_opening, ← hsplit, List.drop_left]
    exact hstarts

theorem closing_some_iff {cs : List Char} {k : Nat} :
    closingPipes? cs = some k ↔
      ∃ n, ClosedAt ('|' :: cs) n ∧ (∀ m < n, ¬ClosedAt ('|' :: cs) m) ∧
        k + 1 = pipeRun ('|' :: cs) + n + pipeRun ('|' :: cs) := by
  have hpos := pipeRun_pos cs
  simp only [closingPipes?, Option.map_eq_some_iff, indexOf?_eq_some_iff, ClosedAt, delimiter,
    ← drop_opening]
  constructor
  · rintro ⟨n, ⟨hn, hfirst⟩, rfl⟩
    exact ⟨n, hn, hfirst, by omega⟩
  · rintro ⟨n, hn, hfirst, hk⟩
    exact ⟨n, ⟨hn, hfirst⟩, by omega⟩

/-- No remembered run stands in what is still to be read, but for the rest of the one that was
just left open. -/
def Remembers (unclosed : List Nat) (cs : List Char) : Prop :=
  ∀ r ∈ unclosed, ¬List.replicate r '|' <:+: cs.drop (r - 1)

theorem suffix_drop {cs ds : List Char} (h : cs <:+ ds) (n : Nat) : cs.drop n <:+ ds.drop n := by
  obtain ⟨front, rfl⟩ := h
  rw [List.drop_append]
  exact (List.drop_suffix_drop_left cs (Nat.sub_le n _)).trans (List.suffix_append _ _)

theorem Remembers.suffix {unclosed : List Nat} {cs ds : List Char} (h : Remembers unclosed ds)
    (hs : cs <:+ ds) : Remembers unclosed cs :=
  fun r hr hagain => h r hr (hagain.trans (suffix_drop hs (r - 1)).isInfix)

theorem Remembers.unclosed {unclosed : List Nat} {cs : List Char}
    (h : Remembers unclosed ('|' :: cs)) (hr : pipeRun ('|' :: cs) ∈ unclosed) :
    closingPipes? cs = none :=
  closing_none.mpr (h.suffix (List.suffix_cons _ _) _ hr)

theorem read_afresh {unclosed : List Nat} {c : Char} {cs : List Char}
    (h : Remembers unclosed (c :: cs)) (afterWord : Bool) :
    Lexeme.read afterWord unclosed c cs = Lexeme.read afterWord [] c cs := by
  unfold Lexeme.read
  by_cases hpipe : c = '|'
  · subst hpipe
    by_cases hr : pipeRun ('|' :: cs) ∈ unclosed
    · simp [hr, readPipes, h.unclosed hr]
    · simp [hr]
  · simp [hpipe]

theorem read_pipe (afterWord : Bool) (cs : List Char) :
    Lexeme.read afterWord [] '|' cs = readPipes cs := by
  simp [Lexeme.read]

theorem symbol_unclosed {afterWord : Bool} {cs : List Char}
    (h : Lexeme.kind (Lexeme.read afterWord [] '|' cs).1 = .symbol) : closingPipes? cs = none := by
  rw [read_pipe, readPipes] at h
  cases hc : closingPipes? cs with
  | none => rfl
  | some n => simp [hc, Lexeme.kind] at h

theorem next_remembers {s u : Scanner} {t : Token} (hs : Remembers s.unclosed s.rest)
    (h : s.next? = some (t, u)) : Remembers u.unclosed u.rest := by
  obtain ⟨c, cs, hr, ht, rfl⟩ := next_cons h
  rw [hr] at hs
  have hrest : cs.drop (Lexeme.read s.afterWord s.unclosed c cs).2 <:+ cs := List.drop_suffix _ _
  have hkept := hs.suffix (List.suffix_cons c cs)
  simp only [Scanner.noteUnclosed]
  split
  · next hsymbol =>
    obtain rfl : c = '|' := by simpa [ht] using congrArg List.head? hsymbol.2
    have hkind : Lexeme.kind (Lexeme.read s.afterWord [] '|' cs).1 = .symbol := by
      rw [← read_afresh hs, ← hsymbol.1, ht]
    refine Remembers.suffix (fun r hmem => ?_) hrest
    rcases List.mem_cons.mp hmem with rfl | hmem
    · -- all but the first pipe of the run are still ahead, and the entry looks past them
      exact closing_none.mp (symbol_unclosed hkind)
    · exact hkept r hmem
  · exact hkept.suffix hrest

def forget (s : Scanner) : Scanner := { s with unclosed := [] }

@[simp]
theorem forget_rest (s : Scanner) : (forget s).rest = s.rest := rfl

@[simp]
theorem forget_diagnostics (s : Scanner) : (forget s).diagnostics = s.diagnostics := rfl

/-- The tokens and reports still to come when every run of pipes is looked up anew. -/
def drainAfresh (s : Scanner) : List Token × List Diagnostic :=
  match _h : (forget s).next? with
  | none => ([], s.diagnostics)
  | some (t, u) =>
    let rest := drainAfresh u
    (t :: rest.1, rest.2)
termination_by s.rest.length
decreasing_by simpa using Scanner.next?_shorter _h

theorem afresh_end {s : Scanner} (h : (forget s).next? = none) :
    drainAfresh s = ([], s.diagnostics) := by
  rw [drainAfresh]
  split
  · rfl
  · next hsome => simp [h] at hsome

theorem afresh_next {s u : Scanner} {t : Token} (h : (forget s).next? = some (t, u)) :
    drainAfresh s = (t :: (drainAfresh u).1, (drainAfresh u).2) := by
  rw [drainAfresh]
  split
  · next hnone => simp [h] at hnone
  · next v w hsome =>
    obtain ⟨rfl, rfl⟩ : t = v ∧ u = w := by simpa [h] using hsome
    rfl

theorem next_forget {s u : Scanner} {t : Token} (hs : Remembers s.unclosed s.rest)
    (h : s.next? = some (t, u)) : ∃ v, (forget s).next? = some (t, v) ∧ forget v = forget u := by
  obtain ⟨c, cs, hr, rfl, rfl⟩ := next_cons h
  rw [hr] at hs
  rw [read_afresh hs]
  simp only [Scanner.next?, forget, hr]
  exact ⟨_, rfl, rfl⟩

theorem drain_afresh (s : Scanner) : ∀ v, forget v = forget s → Remembers s.unclosed s.rest →
    drainAfresh v = (s.drain.1, s.drain.2.diagnostics) := by
  -- the two runs stand at the same place but need not remember the same, so they are compared
  -- without what they remember
  fun_induction Scanner.drain s with
  | case1 s h =>
    intro v hv hs
    have hend : (forget v).next? = none := by
      rw [hv, next_none, forget_rest]
      exact next_none.mp h
    have hreports : v.diagnostics = s.diagnostics := by
      rw [← forget_diagnostics v, hv, forget_diagnostics]
    rw [afresh_end hend, hreports]
  | case2 s t u h rest ih =>
    intro v hv hs
    obtain ⟨w, hw, hwu⟩ := next_forget hs h
    rw [← hv] at hw
    rw [afresh_next hw, ih w hwu (next_remembers hs h)]

/-- What a pipe at the head of a text is read as: through the first run that closes it, or
alone. -/
structure ReadsPipes (ahead : List Char) (t : Token) : Prop where
  closed : ∀ n, ClosedAt ahead n → (∀ m < n, ¬ClosedAt ahead m) →
    t.kind = .blockString ∧ t.text = ahead.take (pipeRun ahead + n + pipeRun ahead)
  unclosed : (∀ n, ¬ClosedAt ahead n) → t.kind = .symbol ∧ t.text = ['|']

theorem next_pipes {s u : Scanner} {t : Token} (hs : Remembers s.unclosed s.rest)
    (h : s.next? = some (t, u)) (hpipe : s.rest.head? = some '|') : ReadsPipes s.rest t := by
  obtain ⟨c, cs, hr, rfl, rfl⟩ := next_cons h
  rw [hr] at hs hpipe ⊢
  obtain rfl : c = '|' := by simpa using hpipe
  rw [read_afresh hs, read_pipe]
  constructor
  · intro n hn hfirst
    have hpos := pipeRun_pos cs
    obtain ⟨k, hk⟩ : ∃ k, k + 1 = pipeRun ('|' :: cs) + n + pipeRun ('|' :: cs) :=
      ⟨pipeRun ('|' :: cs) + n + pipeRun ('|' :: cs) - 1, by omega⟩
    have hclosing : closingPipes? cs = some k := closing_some_iff.mpr ⟨n, hn, hfirst, hk⟩
    simp [readPipes, hclosing, Lexeme.kind, ← hk]
  · intro hopen
    simp [readPipes, closing_none_iff.mpr hopen, Lexeme.kind]

theorem tokenize_pipes {text : String} {before after : List Token} {t : Token}
    (h : (tokenize text).1 = before ++ t :: after) (hpipe : t.text.head? = some '|') :
    ReadsPipes (spelled (t :: after)) t := by
  obtain ⟨v, u, hv, hnext, hrest⟩ :=
    drain_reaches (I := fun s => Remembers s.unclosed s.rest)
      (fun s t u hs hn => next_remembers hs hn) (.ofText text)
      (by simp [Remembers, Scanner.ofText]) h
  rw [← hrest]
  refine next_pipes hv hnext ?_
  rw [hrest, spelled_cons]
  cases ht : t.text with
  | nil => simp [ht] at hpipe
  | cons c cs => simpa [ht] using hpipe

/-- What is remembered only saves work. -/
theorem tokenize_afresh (text : String) :
    tokenize text = drainAfresh (.ofText text) ∧
      ∀ before t after, (tokenize text).1 = before ++ t :: after → t.text.head? = some '|' →
        ReadsPipes (spelled (t :: after)) t := by
  constructor
  · exact (drain_afresh (.ofText text) _ rfl (by simp [Remembers, Scanner.ofText])).symm
  · intro before t after
    exact tokenize_pipes

theorem tokenize_afresh_four :
    (tokenize "||||a|").1 = [0, 1, 2].map (⟨.symbol, ·, ['|']⟩) ++
        [⟨.blockString, 3, ['|', 'a', '|']⟩] ∧
      ReadsPipes ['|', 'a', '|'] ⟨.blockString, 3, ['|', 'a', '|']⟩ := by
  have htokens : (tokenize "||||a|").1 = [0, 1, 2].map (⟨.symbol, ·, ['|']⟩) ++
      [⟨.blockString, 3, ['|', 'a', '|']⟩] := by decide +kernel
  exact ⟨htokens, (tokenize_afresh "||||a|").2 _ _ _ htokens rfl⟩

end DiagramText.Pipes
