import DiagramText.Proofs.Locality
import DiagramText.Proofs.Pruning
import DiagramText.Proofs.Trimming

/-!
# Carriage returns in front of newlines

Where every carriage return stands in front of a newline, a scanner takes it
as the last blank of its line, or reads over it in a comment or a block
literal. So the text without its carriage returns is cut into what is left of
the tokens, and a token that was nothing but a carriage return is gone.
-/

set_option autoImplicit false

namespace DiagramText.CarriageReturns
open Text Lexeme Scanning Lines Pruning Trimming

/-- Every carriage return stands in front of a newline. -/
def Paired : List Char → Prop
  | [] => True
  | c :: cs => (c = '\r' → cs.head? = some '\n') ∧ Paired cs

/-- The text without its carriage returns. -/
def strip (cs : List Char) : List Char := cs.filter (· ≠ '\r')

theorem strip_return (cs : List Char) : strip ('\r' :: cs) = strip cs := rfl

theorem strip_cons {c : Char} (hc : c ≠ '\r') (cs : List Char) :
    strip (c :: cs) = c :: strip cs := List.filter_cons_of_pos (by simp [hc])

@[simp]
theorem strip_append (cs ds : List Char) : strip (cs ++ ds) = strip cs ++ strip ds :=
  List.filter_append ..

theorem strip_clean {cs : List Char} (h : '\r' ∉ cs) : strip cs = cs :=
  List.filter_eq_self.mpr fun _ hc => decide_eq_true fun hr => h (hr ▸ hc)

theorem strip_width (cs : List Char) : byteSize (strip cs) ≤ byteSize cs := by
  induction cs with
  | nil => exact le_rfl
  | cons c cs ih =>
    by_cases hc : c = '\r'
    · subst hc
      rw [strip_return, byteSize_cons]
      omega
    · rw [strip_cons hc, byteSize_cons, byteSize_cons]
      omega

theorem head_end {cs : List Char} (h : cs.head? = some '\n') : ∃ ds, cs = '\n' :: ds := by
  cases cs with
  | nil => simp at h
  | cons c cs => exact ⟨cs, by simpa using h⟩

theorem paired_append {cs ds : List Char} (h : Paired (cs ++ ds)) : Paired ds := by
  induction cs with
  | nil => exact h
  | cons c cs ih => exact ih h.2

theorem strip_pruned {cs : List Char} (h : Paired cs) : Pruned '\r' cs (strip cs) := by
  induction cs with
  | nil => exact .nil
  | cons c cs ih =>
    by_cases hc : c = '\r'
    · subst hc
      obtain ⟨ds, rfl⟩ := head_end (h.1 rfl)
      exact .cut [] rfl (ih h.2)
    · rw [strip_cons hc]
      exact .keep c (ih h.2)

theorem paired_split {cs ds : List Char} (h : Paired (cs ++ ds)) (hr : '\r' ∈ cs) :
    '\n' ∈ cs ∨ cs.getLast? = some '\r' ∧ ds.head? = some '\n' := by
  induction cs with
  | nil => simp at hr
  | cons c cs ih =>
    cases cs with
    | nil =>
      obtain rfl : '\r' = c := by simpa using hr
      exact .inr ⟨rfl, h.1 rfl⟩
    | cons d cs =>
      rcases List.mem_cons.mp hr with rfl | hr
      · obtain rfl : d = '\n' := by simpa using h.1 rfl
        exact .inl (by simp)
      · rcases ih h.2 hr with hn | ⟨hlast, hhead⟩
        · exact .inl (List.mem_cons_of_mem c hn)
        · exact .inr ⟨by rwa [List.getLast?_cons_cons], hhead⟩

theorem run_strip {p : Char → Bool} (hp : p '\r' = true) (cs : List Char) :
    (strip cs).takeWhile p = strip (cs.takeWhile p) := by
  induction cs with
  | nil => rfl
  | cons c cs ih =>
    by_cases hc : c = '\r'
    · subst hc
      rw [strip_return, ih, List.takeWhile_cons, if_pos hp, strip_return]
    · rw [strip_cons hc, List.takeWhile_cons, List.takeWhile_cons, ih]
      split
      · rw [strip_cons hc]
      · rfl

theorem quote_newline {q : Char} (hn : q ≠ '\n') (cs : List Char) :
    closingQuote? q ('\n' :: cs) = none := by
  rw [quote_step (by decide), if_neg hn.symm, if_pos rfl]

theorem quote_strip {q : Char} {cs : List Char} (hq : q ≠ '\\') (hn : q ≠ '\n') (hr : q ≠ '\r')
    (h : Paired cs) : closingQuote? q (strip cs) = closingQuote? q cs ∧
      ∀ n, closingQuote? q cs = some n → '\r' ∉ cs.take n := by
  fun_induction closingQuote? q cs with
  | case1 cs => exact ⟨rfl, by simp⟩
  | case2 c cs hc ih =>
    by_cases hcr : c = '\r'
    · subst hcr
      obtain ⟨ds, rfl⟩ := head_end (h.2.1 rfl)
      rw [quote_newline hn]
      exact ⟨rfl, by simp⟩
    · obtain ⟨hsame, hclean⟩ := ih h.2.2
      rw [strip_cons (by decide), strip_cons hcr, closingQuote?, if_neg hc, hsame]
      refine ⟨rfl, fun n hsome => ?_⟩
      obtain ⟨m, hm, rfl⟩ := Option.map_eq_some_iff.mp hsome
      have hrest := hclean m hm
      simp [Ne.symm hcr, hrest]
  | case3 cs hne =>
    rw [strip_cons hr, quote_step hq, if_pos rfl]
    refine ⟨rfl, fun n hsome => ?_⟩
    obtain rfl : 1 = n := by simpa using hsome
    simp [hr.symm]
  | case4 c cs hne hcq hc =>
    refine ⟨?_, by simp⟩
    rcases hc with rfl | rfl
    · rw [strip_cons (by decide), quote_newline hn]
    · cases cs with
      | nil => simp [strip, closingQuote?, hcq]
      | cons d cs => exact absurd rfl (hne d cs rfl)
  | case5 c cs hne hcq hc ih =>
    rw [not_or] at hc
    by_cases hcr : c = '\r'
    · subst hcr
      obtain ⟨ds, rfl⟩ := head_end (h.1 rfl)
      rw [quote_newline hn]
      exact ⟨quote_newline hn _, by simp⟩
    · obtain ⟨hsame, hclean⟩ := ih h.2
      rw [strip_cons hcr, quote_step hc.2, if_neg hcq, if_neg hc.1, hsame]
      refine ⟨rfl, fun n hsome => ?_⟩
      obtain ⟨m, hm, rfl⟩ := Option.map_eq_some_iff.mp hsome
      have hrest := hclean m hm
      simp [Ne.symm hcr, hrest]
  | case6 => exact ⟨rfl, by simp⟩

theorem index_strip (pattern : List Char) {cs : List Char} (hr : '\r' ∉ pattern)
    (hn : '\n' ∉ pattern) (hne : pattern ≠ []) (h : Paired cs) :
    indexOf? pattern (strip cs) =
      (indexOf? pattern cs).map fun n => (strip (cs.take n)).length := by
  induction cs with
  | nil => simp [strip, indexOf?, hne]
  | cons c cs ih =>
    by_cases hc : c = '\r'
    · subst hc
      have hno : pattern.isPrefixOf ('\r' :: cs) = false := by
        cases pattern with
        | nil => exact absurd rfl hne
        | cons d pattern =>
          have hd : d ≠ '\r' := fun hd => hr (by simp [hd])
          simp [List.isPrefixOf, hd]
      rw [strip_return, ih h.2, indexOf?, hno, if_neg Bool.false_ne_true, Option.map_map]
      rfl
    · have hsame := prefix_pruned pattern hr hn (by decide) (strip_pruned h)
      rw [strip_cons hc] at hsame ⊢
      rw [indexOf?, indexOf?, hsame]
      split
      · rfl
      · rw [ih h.2, Option.map_map, Option.map_map]
        congr 1
        funext n
        simp [strip_cons hc]

theorem index_found {pattern cs : List Char} {n : Nat} (h : indexOf? pattern cs = some n) :
    cs.take (n + pattern.length) = cs.take n ++ pattern := by
  obtain ⟨hstands, -⟩ := indexOf?_eq_some_iff.mp h
  rw [List.take_add, ← List.prefix_iff_eq_take.mp hstands]

theorem word_chars (cs : List Char) :
    ∀ d ∈ cs.take (wordLength cs), isWordChar d = true ∨ d = '-' := by
  fun_induction wordLength cs with
  | case1 c cs hc ih =>
    rw [List.take_succ_cons, List.take_succ_cons]
    exact List.forall_mem_cons.mpr ⟨.inr rfl, List.forall_mem_cons.mpr ⟨.inl hc, ih⟩⟩
  | case2 => simp
  | case3 c cs hne hc ih =>
    rw [List.take_succ_cons]
    exact List.forall_mem_cons.mpr ⟨.inl hc, ih⟩
  | case4 => simp
  | case5 => simp

theorem clean_length {cs : List Char} {n : Nat} (h : '\r' ∉ cs.take n) (hle : n ≤ cs.length) :
    (strip (cs.take n)).length = n := by
  rw [strip_clean h, List.length_take, Nat.min_eq_left hle]

theorem take_run (p : Char → Bool) (cs : List Char) :
    cs.take (cs.takeWhile p).length = cs.takeWhile p :=
  (List.prefix_iff_eq_take.mp (List.takeWhile_prefix p)).symm

theorem string_strip {q : Char} {cs : List Char} (hq : q ≠ '\\') (hn : q ≠ '\n') (hr : q ≠ '\r')
    (h : Paired cs) : readString q (strip cs) =
      ((readString q cs).1, (strip (cs.take (readString q cs).2)).length) := by
  obtain ⟨hsame, hclean⟩ := quote_strip hq hn hr h
  unfold readString
  rw [hsame]
  cases hc : closingQuote? q cs with
  | some n => exact Prod.ext rfl (clean_length (hclean n hc) (quote_stays hq hc []).2).symm
  | none =>
    simp only [lineLength, take_run, run_strip (p := (· ≠ '\n')) rfl]

theorem found_length {pattern cs : List Char} {n : Nat} (hr : '\r' ∉ pattern)
    (h : indexOf? pattern cs = some n) :
    (strip (cs.take (n + pattern.length))).length =
      (strip (cs.take n)).length + pattern.length := by
  rw [index_found h, strip_append, strip_clean hr, List.length_append]

theorem comment_strip {cs : List Char} (hopen : ['"', '"'].isPrefixOf cs = true)
    (h : Paired cs) : readComment (strip cs) =
      ((readComment cs).1, (strip (cs.take (readComment cs).2)).length) := by
  obtain ⟨rest, rfl⟩ := List.isPrefixOf_iff_prefix.mp hopen
  have hindex := index_strip ['"', '"', '"'] (by decide) (by decide) (by decide)
    (paired_append h)
  have htwo (cs : List Char) : strip ('"' :: '"' :: cs) = '"' :: '"' :: strip cs := by
    rw [strip_cons (by decide), strip_cons (by decide)]
  simp only [readComment, List.cons_append, List.nil_append, htwo, List.drop_succ_cons,
    List.drop_zero, hindex]
  cases hc : indexOf? ['"', '"', '"'] rest with
  | none => simp only [Option.map_none, List.take_length, htwo]
  | some n =>
    have hfound := found_length (by decide) hc
    simp only [List.length_cons, List.length_nil] at hfound
    simp only [Option.map_some, List.take_succ_cons, htwo, List.length_cons, hfound]

theorem pipes_clean {cs : List Char} {n : Nat} (hle : n ≤ (cs.takeWhile (· == '|')).length) :
    '\r' ∉ cs.take n := by
  intro hr
  have hhead : cs.take n <+: cs.takeWhile (· == '|') :=
    List.prefix_of_prefix_length_le (List.take_prefix n cs) (List.takeWhile_prefix _)
      ((List.length_take_le n cs).trans hle)
  have hpipe := List.mem_takeWhile_imp (hhead.subset hr)
  simp at hpipe

theorem pipes_strip {cs : List Char} (h : Paired cs) :
    readPipes (strip cs) = ((readPipes cs).1, (strip (cs.take (readPipes cs).2)).length) := by
  have hrun := pipe_run_pruned (by decide) (by decide) (strip_pruned h)
  have hbound := pipe_run_bound cs
  have hpos : 0 < Literal.pipeRun ('|' :: cs) := by simp [Literal.pipeRun]
  simp only [readPipes, closingPipes?, hrun]
  generalize Literal.pipeRun ('|' :: cs) = k at *
  have hclean := pipes_clean hbound
  have hlength : (cs.take (k - 1)).length = k - 1 := by
    have hle := (List.takeWhile_prefix (· == '|') (l := cs)).length_le
    rw [List.length_take]
    omega
  have hdrop : (strip cs).drop (k - 1) = strip (cs.drop (k - 1)) := by
    have hsplit : strip cs = cs.take (k - 1) ++ strip (cs.drop (k - 1)) := by
      rw [← strip_clean hclean, ← strip_append, List.take_append_drop]
    rw [hsplit, List.drop_left' hlength]
  have hrest : Paired (cs.drop (k - 1)) := by
    rw [← List.take_append_drop (k - 1) cs] at h
    exact paired_append h
  have hindex := index_strip (List.replicate k '|') (pipe_pattern (by decide) k)
    (pipe_pattern (by decide) k) (by simp; omega) hrest
  rw [hdrop, hindex]
  cases hc : indexOf? (List.replicate k '|') (cs.drop (k - 1)) with
  | none => rfl
  | some n =>
    have hfound := found_length (pipe_pattern (by decide) k) hc
    have htake : cs.take (k - 1 + n + k) =
        cs.take (k - 1) ++ (cs.drop (k - 1)).take (n + k) := by
      rw [Nat.add_assoc, List.take_add]
    rw [List.length_replicate] at hfound
    simp only [Option.map_some, htake, strip_append, strip_clean hclean, List.length_append,
      hlength, hfound]
    rw [← Nat.add_assoc]

theorem connector_clean {c : Char} {cs : List Char} {k : TokenKind} {n : Nat}
    (h : connector? c cs = some (k, n)) : '\r' ∉ c :: cs.take n := by
  have htake {pattern : List Char} (hp : pattern.isPrefixOf cs = true) :
      cs.take pattern.length = pattern :=
    (List.prefix_iff_eq_take.mp (List.isPrefixOf_iff_prefix.mp hp)).symm
  unfold connector? at h
  split at h
  · next hc =>
    subst hc
    split at h
    · next hp =>
      obtain ⟨-, rfl⟩ := Prod.mk.inj (Option.some.inj h)
      rw [show cs.take 2 = ['-', '>'] from htake hp]
      decide
    · split at h
      · next hp =>
        obtain ⟨-, rfl⟩ := Prod.mk.inj (Option.some.inj h)
        rw [show cs.take 1 = ['-'] from htake hp]
        decide
      · simp at h
  · split at h
    · next hc =>
      subst hc
      split at h
      · next hp =>
        obtain ⟨-, rfl⟩ := Prod.mk.inj (Option.some.inj h)
        rw [show cs.take 1 = ['>'] from htake hp]
        decide
      · split at h
        · next hp =>
          obtain ⟨-, rfl⟩ := Prod.mk.inj (Option.some.inj h)
          rw [show cs.take 1 = ['-'] from htake hp]
          decide
        · simp at h
    · simp at h

theorem word_clean (cs : List Char) : '\r' ∉ cs.take (wordLength cs) := fun hr => by
  rcases word_chars cs '\r' hr with hw | hw
  · exact absurd hw (by decide)
  · exact absurd hw (by decide)

theorem plain_strip (c : Char) {cs : List Char} (h : Paired cs) :
    readPlain c (strip cs) =
      ((readPlain c cs).1, (strip (cs.take (readPlain c cs).2)).length) := by
  have hconnector := connector_pruned (by decide) (by decide) (by decide) c (strip_pruned h)
  have hword := word_pruned (by decide) (by decide) (by decide) (strip_pruned h)
  unfold readPlain
  rw [hconnector]
  cases hc : connector? c cs with
  | some kn =>
    obtain ⟨k, n⟩ := kn
    have hclean := fun hr => connector_clean hc (List.mem_cons_of_mem c hr)
    exact Prod.ext rfl (clean_length hclean (connector_le hc)).symm
  | none =>
    simp only [hword]
    split
    · rfl
    split
    · rw [take_run, ← run_strip (by decide)]
    split
    · rw [lineLength, lineLength, take_run, ← run_strip (by decide)]
    split
    · rw [clean_length (word_clean cs) (word_length cs []).2]
    split
    · rfl
    · split <;> rfl

/-- What starts with a character other than a carriage return is read alike, without the
carriage returns in it. -/
theorem read_strip {afterWord : Bool} {unclosed : List Nat} (c : Char) {cs : List Char}
    (h : Paired cs) : Lexeme.read afterWord unclosed c (strip cs) =
      ((Lexeme.read afterWord unclosed c cs).1,
        (strip (cs.take (Lexeme.read afterWord unclosed c cs).2)).length) := by
  have hopen := prefix_pruned ['"', '"'] (by decide) (by decide) (by decide) (strip_pruned h)
  have hrun := pipe_run_pruned (by decide) (by decide) (strip_pruned h)
  unfold Lexeme.read
  split
  · next hq =>
    subst hq
    rw [hopen]
    split
    · next hquotes => exact comment_strip hquotes h
    · exact string_strip (by decide) (by decide) (by decide) h
  split
  · next ha =>
    subst ha
    split
    · rfl
    · exact string_strip (by decide) (by decide) (by decide) h
  split
  · next hb =>
    subst hb
    rw [hrun]
    split
    · rfl
    · exact pipes_strip h
  · exact plain_strip c h

/-- How a carriage return can stand in a token: in an unreadable one, with its newline in a
block, or at the end of trivia with a newline behind. -/
def Returned (k : TokenKind) (text rest : List Char) : Prop :=
  '\r' ∈ text → k = .error ∨ (k = .blockComment ∨ k = .blockString) ∧ '\n' ∈ text ∨
    k.isTrivia = true ∧ rest.head? = some '\n'

theorem string_returned {q : Char} {cs : List Char} (hq : q ≠ '\\') (hn : q ≠ '\n')
    (hr : q ≠ '\r') (h : Paired cs) :
    Returned (kind (readString q cs).1) (q :: cs.take (readString q cs).2)
      (cs.drop (readString q cs).2) := by
  unfold readString
  cases hc : closingQuote? q cs with
  | none => exact fun _ => .inl rfl
  | some n =>
    intro hmem
    rcases List.mem_cons.mp hmem with hmem | hmem
    · exact absurd hmem hr.symm
    · exact absurd hmem ((quote_strip hq hn hr h).2 n hc)

theorem block_returned {k : TokenKind} {c d : Char} {cs : List Char} {n : Nat}
    (hk : k = .blockComment ∨ k = .blockString) (hd : d ≠ '\r')
    (hlast : (cs.take n).getLast? = some d) (h : Paired (c :: cs)) :
    Returned k (c :: cs.take n) (cs.drop n) := by
  intro hmem
  have hsplit : Paired (c :: cs.take n ++ cs.drop n) := by simpa using h
  rcases paired_split hsplit hmem with hn | ⟨hreturn, -⟩
  · exact .inr (.inl ⟨hk, hn⟩)
  · rw [List.getLast?_cons, hlast] at hreturn
    exact absurd (Option.some.inj hreturn) hd

theorem trivia_returned {k : TokenKind} {c : Char} {cs : List Char} {n : Nat}
    (hk : k.isTrivia = true) (hn : '\n' ∉ c :: cs.take n) (h : Paired (c :: cs)) :
    Returned k (c :: cs.take n) (cs.drop n) := by
  intro hmem
  have hsplit : Paired (c :: cs.take n ++ cs.drop n) := by simpa using h
  rcases paired_split hsplit hmem with hnewline | ⟨-, hhead⟩
  · exact absurd hnewline hn
  · exact .inr (.inr ⟨hk, hhead⟩)

theorem clean_returned {k : TokenKind} {text rest : List Char} (h : '\r' ∉ text) :
    Returned k text rest := fun hmem => absurd hmem h

theorem comment_returned {cs : List Char} (hopen : ['"', '"'].isPrefixOf cs = true)
    (h : Paired ('"' :: cs)) :
    Returned (kind (readComment cs).1) ('"' :: cs.take (readComment cs).2)
      (cs.drop (readComment cs).2) := by
  obtain ⟨rest, rfl⟩ := List.isPrefixOf_iff_prefix.mp hopen
  unfold readComment
  cases hc : indexOf? ['"', '"', '"'] ((['"', '"'] ++ rest).drop 2) with
  | none => exact fun _ => .inl rfl
  | some n =>
    have hfound : rest.take (n + 3) = rest.take n ++ ['"', '"', '"'] := index_found hc
    have htake : (['"', '"'] ++ rest).take (n + 5) =
        ('"' :: '"' :: rest.take n) ++ ['"', '"', '"'] :=
      congrArg ('"' :: '"' :: ·) hfound
    refine block_returned (.inl rfl) (d := '"') (by decide) ?_ h
    show ((['"', '"'] ++ rest).take (n + 5)).getLast? = _
    rw [htake, List.getLast?_append]
    rfl

theorem pipes_returned {cs : List Char} (h : Paired ('|' :: cs)) :
    Returned (kind (readPipes cs).1) ('|' :: cs.take (readPipes cs).2)
      (cs.drop (readPipes cs).2) := by
  have hpos : 0 < Literal.pipeRun ('|' :: cs) := by simp [Literal.pipeRun]
  simp only [readPipes, closingPipes?]
  generalize Literal.pipeRun ('|' :: cs) = k at *
  cases hc : indexOf? (List.replicate k '|') (cs.drop (k - 1)) with
  | none => exact clean_returned (by simp)
  | some n =>
    have hfound := index_found hc
    have htake : cs.take (k - 1 + n + k) =
        cs.take (k - 1) ++ (cs.drop (k - 1)).take n ++ List.replicate k '|' := by
      rw [List.length_replicate] at hfound
      rw [Nat.add_assoc, List.take_add, hfound, List.append_assoc]
    refine block_returned (.inr rfl) (d := '|') (by decide) ?_ h
    show (cs.take (k - 1 + n + k)).getLast? = _
    rw [htake, List.getLast?_append, List.getLast?_replicate, if_neg (by omega)]
    rfl

theorem run_lacks {p : Char → Bool} {d : Char} (hp : p d = false) (cs : List Char) :
    d ∉ cs.take (cs.takeWhile p).length := by
  rw [take_run]
  intro hmem
  simp [List.mem_takeWhile_imp hmem] at hp

theorem plain_returned {c : Char} {cs : List Char} (h : Paired (c :: cs)) :
    Returned (kind (readPlain c cs).1) (c :: cs.take (readPlain c cs).2)
      (cs.drop (readPlain c cs).2) := by
  unfold readPlain
  cases hc : connector? c cs with
  | some kn => exact clean_returned (connector_clean hc)
  | none =>
    simp only
    split
    · next hn =>
      apply clean_returned
      simp [hn]
    next hn =>
    split
    · next hb =>
      refine trivia_returned rfl (fun hmem => ?_) h
      rcases List.mem_cons.mp hmem with hmem | hmem
      · exact hn hmem.symm
      · exact run_lacks (p := isSpace) (by decide) cs hmem
    next hb =>
    -- a carriage return is a blank
    have hcr : c ≠ '\r' := by
      rintro rfl
      exact hb (by decide)
    split
    · next hh =>
      refine trivia_returned rfl (fun hmem => ?_) h
      rcases List.mem_cons.mp hmem with hmem | hmem
      · exact hn hmem.symm
      · exact line_take cs hmem
    split
    · apply clean_returned
      simp [Ne.symm hcr, word_clean cs]
    · have halone (k : TokenKind) : Returned k [c] cs := clean_returned (by simp [Ne.symm hcr])
      split
      · exact halone _
      · split <;> exact halone _

theorem read_returned (afterWord : Bool) (unclosed : List Nat) {c : Char} {cs : List Char}
    (h : Paired (c :: cs)) :
    Returned (kind (Lexeme.read afterWord unclosed c cs).1)
      (c :: cs.take (Lexeme.read afterWord unclosed c cs).2)
      (cs.drop (Lexeme.read afterWord unclosed c cs).2) := by
  unfold Lexeme.read
  split
  · next hq =>
    subst hq
    split
    · next hquotes => exact comment_returned hquotes h
    · exact string_returned (by decide) (by decide) (by decide) h.2
  split
  · next ha =>
    subst ha
    split
    · exact clean_returned (by simp)
    · exact string_returned (by decide) (by decide) (by decide) h.2
  split
  · next hb =>
    subst hb
    split
    · exact clean_returned (by simp)
    · exact pipes_returned h
  · exact plain_returned h

/-- Leaves the carriage returns out. -/
abbrev returnless (ts : List Token) : Edit := trimming (fun t => strip t.text) ts

theorem token_kept {ts : List Token} {t : Token} (h : strip t.text ≠ []) :
    (returnless ts).token t =
      some ⟨t.kind, (returnless ts).offset t.start, strip t.text⟩ := if_neg h

theorem token_gone {ts : List Token} {t : Token} (h : strip t.text = []) :
    (returnless ts).token t = none := if_pos h

/-- The second scanner reads what the first does, less the carriage returns, and stands at the
place where the edit puts the first. -/
structure Strips (ts : List Token) (s s' : Scanner) : Prop where
  ahead : s.drain.1 <:+ ts
  paired : Paired s.rest
  rest : s'.rest = strip s.rest
  offset : s'.offset = (returnless ts).offset s.offset
  afterWord : s'.afterWord = s.afterWord ∨ LineEnd s.rest
  unclosed : s'.unclosed = s.unclosed
  silent : s'.diagnostics = [] → s.diagnostics = []

theorem read_symbol {afterWord : Bool} {unclosed : List Nat} {c : Char} {cs : List Char}
    (h : kind (Lexeme.read afterWord unclosed c cs).1 = .symbol) :
    (Lexeme.read afterWord unclosed c cs).2 = 0 := by
  have hconnector {k : TokenKind} {n : Nat} (hc : connector? c cs = some (k, n)) :
      k ≠ .symbol := by
    unfold connector? at hc
    grind
  have hplain : kind (readPlain c cs).1 = .symbol → (readPlain c cs).2 = 0 := by
    unfold readPlain
    grind [kind]
  unfold Lexeme.read readString readComment readPipes at *
  grind [kind]

theorem escapes_anywhere {cs : List Char} (o p : Nat)
    (h : Literal.unknownEscapes o cs = []) : Literal.unknownEscapes p cs = [] := by
  have ho := escapes_moved o 0 cs
  have hp := escapes_moved p 0 cs
  rw [Nat.zero_add] at ho hp
  rw [h] at ho
  rw [hp, List.map_eq_nil_iff.mp ho.symm]
  rfl

theorem faults_silent {k : TokenKind} {o p : Nat} {cs ds : List Char} {r : Reading}
    (hs : r = .ok .string → ds = cs) (h : Lexeme.diagnostics ⟨k, o, ds⟩ r = []) :
    Lexeme.diagnostics ⟨k, p, cs⟩ r = [] := by
  cases r with
  | error f => simp [Lexeme.diagnostics] at h
  | ok l =>
    cases l with
    | string =>
      obtain rfl := hs rfl
      simp only [Lexeme.diagnostics, List.map_eq_nil_iff] at h ⊢
      exact escapes_anywhere o p h
    | _ => rfl

section

variable {ts : List Token} {s s' u : Scanner} {t : Token}

theorem strips_end (h : Strips ts s s') (hnone : s.next? = none) : s'.next? = none := by
  rw [next_none, h.rest, next_none.mp hnone]
  rfl

theorem return_next {cs : List Char} (hr : s.rest = '\r' :: '\n' :: cs) :
    s.next? = some (⟨.whitespace, s.offset, ['\r']⟩,
      ⟨'\n' :: cs, s.offset + 1, false, s.unclosed, s.diagnostics⟩) := by
  have hread : Lexeme.read s.afterWord s.unclosed '\r' ('\n' :: cs) = (.ok .whitespace, 0) := by
    simp [Lexeme.read, readPlain, connector?, show isBlank '\r' = true by decide,
      show isSpace '\n' = false by decide]
  rw [@next_read s '\r' [] ('\n' :: cs) _ hr hread]
  simp [kind, Scanner.noteUnclosed, Lexeme.diagnostics, Token.stop]
  rfl

theorem strips_return {cs : List Char} (hts : Tiled 0 ts) (h : Strips ts s s')
    (hr : s.rest = '\r' :: cs) (hnext : s.next? = some (t, u)) :
    (returnless ts).token t = none ∧ Strips ts u s' := by
  have hdrain : s.drain.1 = t :: u.drain.1 := congrArg Prod.fst (drain_next hnext)
  have hmem : t ∈ ts := h.ahead.subset (by simp [hdrain])
  have hpaired := h.paired
  rw [hr] at hpaired
  obtain ⟨ds, rfl⟩ := head_end (hpaired.1 rfl)
  obtain ⟨rfl, rfl⟩ : ⟨.whitespace, s.offset, ['\r']⟩ = t ∧
      ⟨'\n' :: ds, s.offset + 1, false, s.unclosed, s.diagnostics⟩ = u := by
    simpa [hnext] using (return_next hr).symm
  refine ⟨rfl, ?_, hpaired.2, ?_, ?_, .inr rfl, h.unclosed, h.silent⟩
  · exact (List.suffix_cons _ _).trans (hdrain ▸ h.ahead)
  · rw [h.rest, hr]
    rfl
  · have hstop := @offset_stop (fun t => strip t.text) ts _ hts hmem (strip_width _)
      (List.cons_ne_nil _ _)
    exact h.offset.trans hstop.symm

theorem unclosed_strip {k : TokenKind} {o p : Nat} {c : Char} {cs ds : List Char}
    {unclosed : List Nat} (hs : k = .symbol → ds = []) (h : Paired cs) :
    Scanner.noteUnclosed unclosed ⟨k, p, c :: strip ds⟩ (strip cs) =
      Scanner.noteUnclosed unclosed ⟨k, o, c :: ds⟩ cs := by
  have hrun := pipe_run_pruned (by decide) (by decide) (strip_pruned h)
  simp only [Scanner.noteUnclosed, hrun]
  by_cases hk : k = .symbol
  · rw [hs hk]
    rfl
  · simp only [hk, false_and]

theorem strips_token {c : Char} {cs : List Char} (hts : Tiled 0 ts) (h : Strips ts s s')
    (hr : s.rest = c :: cs) (hc : c ≠ '\r') (hnext : s.next? = some (t, u)) :
    ∃ v u', (returnless ts).token t = some v ∧ s'.next? = some (v, u') ∧ Strips ts u u' := by
  have hdrain : s.drain.1 = t :: u.drain.1 := congrArg Prod.fst (drain_next hnext)
  have hmem : t ∈ ts := h.ahead.subset (by simp [hdrain])
  have hpaired := h.paired
  rw [hr] at hpaired
  obtain ⟨c', cs', hr', htoken, hu⟩ := next_cons hnext
  obtain ⟨rfl, rfl⟩ : c = c' ∧ cs = cs' := by simpa [hr] using hr'
  have hreturned := read_returned s.afterWord s.unclosed hpaired
  have hsymbol := @read_symbol s.afterWord s.unclosed c cs
  have hread : Lexeme.read s'.afterWord s'.unclosed c (strip cs) =
      ((Lexeme.read s.afterWord s.unclosed c cs).1,
        (strip (cs.take (Lexeme.read s.afterWord s.unclosed c cs).2)).length) := by
    rw [h.unclosed, read_either hr h.afterWord]
    exact read_strip c hpaired.2
  generalize Lexeme.read s.afterWord s.unclosed c cs = lexeme at *
  have hsplit : strip cs = strip (cs.take lexeme.2) ++ strip (cs.drop lexeme.2) := by
    rw [← strip_append, List.take_append_drop]
  have hrest : s'.rest = c :: (strip (cs.take lexeme.2) ++ strip (cs.drop lexeme.2)) := by
    rw [h.rest, hr, strip_cons hc, hsplit]
  have hstep := next_read hrest (hsplit ▸ hread)
  have htext : strip t.text = c :: strip (cs.take lexeme.2) := by rw [htoken, strip_cons hc]
  have hstop := @offset_stop (fun t => strip t.text) ts t hts hmem (strip_width t.text)
    (by simp [htoken])
  refine ⟨⟨kind lexeme.1, s'.offset, c :: strip (cs.take lexeme.2)⟩, _, ?_, hstep,
    ?_, ?_, ?_, ?_, .inl ?_, ?_, ?_⟩
  · rw [token_kept (by simp [htext]), htext, h.offset, htoken]
  · exact (List.suffix_cons t _).trans (hdrain ▸ h.ahead)
  · rw [hu]
    exact @paired_append (c :: cs.take lexeme.2) _ (by simpa using hpaired)
  · rw [hu]
  · rw [hu]
    show s'.offset + byteSize _ = _
    rw [h.offset, ← htext, hstop, htoken]
  · rw [hu, htoken]
  · rw [hu, htoken, ← hsplit, h.unclosed]
    exact unclosed_strip (fun hk => by simp [hsymbol hk]) hpaired.2
  · intro hsilent
    rw [List.append_eq_nil_iff] at hsilent
    rw [hu, List.append_eq_nil_iff, htoken]
    refine ⟨h.silent hsilent.1, faults_silent (fun hs => ?_) hsilent.2⟩
    -- the text of a string holds no carriage return
    have hclean : '\r' ∉ c :: cs.take lexeme.2 := by
      intro hmem
      have hcases := hreturned hmem
      simp [hs, kind, TokenKind.isTrivia] at hcases
    rw [strip_clean fun hmem => hclean (List.mem_cons_of_mem c hmem)]

theorem strips_next (hts : Tiled 0 ts) (h : Strips ts s s') (hnext : s.next? = some (t, u)) :
    (returnless ts).token t = none ∧ Strips ts u s' ∨
      ∃ v u', (returnless ts).token t = some v ∧ s'.next? = some (v, u') ∧ Strips ts u u' := by
  obtain ⟨c, cs, hr, -⟩ := next_cons hnext
  by_cases hc : c = '\r'
  · subst hc
    exact .inl (strips_return hts h hr hnext)
  · exact .inr (strips_token hts h hr hc hnext)

end

/-- The text without its carriage returns. -/
def withoutReturns (text : String) : String := .ofList (strip text.toList)

theorem text_strips {text : String} (h : Paired text.toList) :
    Strips (tokenize text).1 (.ofText text) (.ofText (withoutReturns text)) :=
  ⟨List.suffix_rfl, h, by rw [Scanner.ofText, withoutReturns, String.toList_ofList]; rfl,
    (offset_zero _).symm, .inl rfl, rfl, fun _ => rfl⟩

theorem tokenize_stripped {text : String} (h : Paired text.toList) :
    (tokenize (withoutReturns text)).1 = (returnless (tokenize text).1).row (tokenize text).1 ∧
      ((tokenize (withoutReturns text)).2 = [] → (tokenize text).2 = []) ∧
      (withoutReturns text).utf8ByteSize =
        (returnless (tokenize text).1).offset text.utf8ByteSize := by
  have hts := (tokenize_covers text).1
  obtain ⟨hrow, hlast⟩ := drain_edited (fun _ _ => strips_end) (fun _ _ _ _ => strips_next hts)
    (.ofText text) (.ofText (withoutReturns text)) (text_strips h)
  refine ⟨hrow, hlast.silent, ?_⟩
  have hoffset := hlast.offset
  rw [drain_offset, drain_offset] at hoffset
  simpa [Scanner.ofText, byteSize_toList] using hoffset

end DiagramText.CarriageReturns
