import DiagramText.Proofs.Ends
import DiagramText.Proofs.Pipes

/-!
# The parts of a block literal

A block literal is a body between two equal runs of pipes. Its tag and its text
are cut out of the body in two ways that do not always fit together: the tag is
looked for behind all leading pipes and needs a blank after it, while the text
is what follows the first blank of the body. They share the body out between
them unless it has no blank or starts with a pipe of its own.
-/

set_option autoImplicit false

namespace DiagramText.BlockLiterals
open Text Lexeme Scanning Pipes Literal

def isShown (c : Char) : Bool := !isBlank c

theorem pipe_solid : isBlank '|' = false := by decide

theorem pipes_solid (n : Nat) : (List.replicate n '|').any isBlank = false := by
  simp [pipe_solid]

theorem filter_trim (cs : List Char) : (trim cs).filter isShown = cs.filter isShown := by
  rw [Ends.trim_blanks, Ends.filter_stripped fun c hc => by simp [isShown, hc]]

/-- A body between two runs of pipes, the second of which is the first place where the opening
run stands again. Only after a run of the greatest length the body may start with a pipe. -/
structure Delimited (raw : List Char) (run : Nat) (body : List Char) : Prop where
  spells : raw = List.replicate run '|' ++ (body ++ List.replicate run '|')
  positive : 0 < run
  bounded : run ≤ 3
  short : run < 3 → ∃ c cs, body = c :: cs ∧ c ≠ '|'
  first : ∀ n < body.length, ¬List.replicate run '|' <+: (body ++ List.replicate run '|').drop n

theorem pipes_split (cs : List Char) :
    ∃ k rest, cs = List.replicate k '|' ++ rest ∧ rest.head? ≠ some '|' ∧ pipeRun cs = min 3 k := by
  have hpipes : cs.takeWhile (· == '|') =
      List.replicate (cs.takeWhile (· == '|')).length '|' :=
    List.eq_replicate_of_mem fun c hc => by simpa using List.mem_takeWhile_imp hc
  refine ⟨(cs.takeWhile (· == '|')).length, cs.dropWhile (· == '|'), ?_, ?_, rfl⟩
  · rw [← hpipes, List.takeWhile_append_dropWhile]
  · intro hhead
    simpa [hhead] using List.head?_dropWhile_not (· == '|') cs

theorem delimiter_opens (cs : List Char) : delimiter cs <+: cs := by
  obtain ⟨k, rest, hcs, -, hrun⟩ := pipes_split cs
  have hk : k = pipeRun cs + (k - pipeRun cs) := by omega
  rw [hk, List.replicate_add, List.append_assoc] at hcs
  exact ⟨_, hcs.symm⟩

theorem short_run {cs : List Char} (h : pipeRun cs < 3) :
    (cs.drop (pipeRun cs)).head? ≠ some '|' := by
  obtain ⟨k, rest, hcs, hrest, hrun⟩ := pipes_split cs
  have hk : pipeRun cs = k := by omega
  rw [hk, hcs, List.drop_left' List.length_replicate]
  exact hrest

theorem closed_split {ahead : List Char} {n : Nat} (hpipe : 0 < pipeRun ahead)
    (h : ClosedAt ahead n) :
    ∃ body after, ahead = delimiter ahead ++ (body ++ (delimiter ahead ++ after)) ∧
      body.length = n := by
  obtain ⟨tail, htail⟩ := delimiter_opens ahead
  obtain ⟨after, hafter⟩ := h
  have hdrop : ahead.drop (pipeRun ahead + n) = tail.drop n := by
    rw [← List.drop_drop]
    nth_rewrite 2 [← htail]
    rw [List.drop_left' (by rw [delimiter, List.length_replicate])]
  rw [hdrop] at hafter
  refine ⟨tail.take n, after, ?_, ?_⟩
  · rw [hafter, List.take_append_drop, htail]
  · have hlong : 0 < (tail.drop n).length := by
      rw [← hafter, List.length_append, delimiter, List.length_replicate]
      omega
    rw [List.length_drop] at hlong
    rw [List.length_take]
    omega

theorem closed_delimited {ahead : List Char} {n : Nat} (hpipe : 0 < pipeRun ahead)
    (hclosed : ClosedAt ahead n) (hfirst : ∀ m < n, ¬ClosedAt ahead m) :
    ∃ body, Delimited (ahead.take (pipeRun ahead + n + pipeRun ahead)) (pipeRun ahead) body := by
  obtain ⟨body, after, hahead, hlength⟩ := closed_split hpipe hclosed
  have hshort := @short_run ahead
  have hbounded : pipeRun ahead ≤ 3 := Nat.min_le_left _ _
  simp only [ClosedAt, delimiter] at hfirst hahead
  generalize pipeRun ahead = run at *
  have hdrop : ahead.drop run = body ++ (List.replicate run '|' ++ after) := by
    rw [hahead, List.drop_left' List.length_replicate]
  refine ⟨body, ?_, hpipe, hbounded, fun hrun => ?_, fun m hm hagain => ?_⟩
  · have hwhole : (List.replicate run '|' ++ (body ++ List.replicate run '|')).length =
        run + n + run := by simp; omega
    have hsplit : ahead =
        (List.replicate run '|' ++ (body ++ List.replicate run '|')) ++ after := by
      simpa using hahead
    rw [hsplit, ← hwhole, List.take_left]
  · -- without a body the closing run would have made the opening one longer
    have hhead := hshort hrun
    rw [hdrop] at hhead
    obtain ⟨k, rfl⟩ := Nat.exists_eq_succ_of_ne_zero hpipe.ne'
    cases body with
    | nil => simp [List.replicate_succ] at hhead
    | cons c cs => exact ⟨c, cs, rfl, by simpa using hhead⟩
  · apply hfirst m (hlength ▸ hm)
    rw [← List.drop_drop, hdrop, ← List.append_assoc,
      List.drop_append_of_le_length (by simp; omega)]
    exact hagain.trans (List.prefix_append _ _)

/-- What stands in front of the first blank, behind all leading pipes. -/
def word (body : List Char) : List Char := (body.dropWhile (· == '|')).takeWhile isShown

section
variable {raw body : List Char} {run : Nat}

theorem Delimited.run_eq (h : Delimited raw run body) : pipeRun raw = run := by
  have hpipes : raw.takeWhile (· == '|') =
      List.replicate run '|' ++ (body ++ List.replicate run '|').takeWhile (· == '|') := by
    rw [h.spells, List.takeWhile_append_of_pos]
    simp
  rw [pipeRun, hpipes, List.length_append, List.length_replicate]
  by_cases hrun : run < 3
  · obtain ⟨c, cs, rfl, hc⟩ := h.short hrun
    simp [hc]
    omega
  · have hbounded := h.bounded
    omega

theorem Delimited.body_eq (h : Delimited raw run body) : blockBody raw = body := by
  have htake : raw.take run = List.replicate run '|' := by
    rw [h.spells, List.take_left' List.length_replicate]
  have hdrop : raw.drop run = body ++ List.replicate run '|' := by
    rw [h.spells, List.drop_left' List.length_replicate]
  simp [blockBody, h.run_eq, htake, hdrop]

theorem Delimited.text_eq (h : Delimited raw run body) :
    blockText raw = trim (body.dropWhile isShown) := by
  rw [blockText, h.body_eq]
  rfl

theorem Delimited.not_pipes (h : Delimited raw run body) (hne : body ≠ []) :
    body.dropWhile (· == '|') ≠ [] := by
  intro hpipes
  have hall : body = List.replicate body.length '|' :=
    List.eq_replicate_of_mem fun c hc => by simpa using List.dropWhile_eq_nil_iff.mp hpipes c hc
  apply h.first 0 (List.length_pos_iff.mpr hne)
  rw [hall, List.drop_zero, List.replicate_append_replicate, Nat.add_comm,
    List.replicate_add]
  exact List.prefix_append _ _

theorem Delimited.behind_pipes (h : Delimited raw run body) (hne : body ≠ []) :
    raw.dropWhile (· == '|') = body.dropWhile (· == '|') ++ List.replicate run '|' := by
  rw [h.spells, List.dropWhile_append_of_pos (by simp), List.dropWhile_append]
  have hrest := h.not_pipes hne
  simp [hrest]

theorem blank_behind_pipes (body : List Char) :
    (body.dropWhile (· == '|')).any isBlank = body.any isBlank := by
  induction body with
  | nil => rfl
  | cons c cs ih =>
    by_cases hc : c = '|'
    · subst hc
      simp [pipe_solid, ih]
    · simp [hc]

theorem blank_iff (cs : List Char) :
    (cs.takeWhile isShown).length = cs.length ↔ cs.any isBlank = false := by
  constructor
  · intro hlength
    have hall := (List.takeWhile_prefix isShown).eq_of_length hlength
    rw [List.takeWhile_eq_self_iff] at hall
    simpa [isShown] using hall
  · intro hnone
    rw [List.takeWhile_eq_self_iff.mpr (by simpa [isShown] using hnone)]

theorem Delimited.tag_eq (h : Delimited raw run body) :
    blockTag? raw = if body.any isBlank ∧ word body ≠ [] then some (word body) else none := by
  have htag : blockTag? raw =
      if ((raw.dropWhile (· == '|')).takeWhile isShown).length =
          (raw.dropWhile (· == '|')).length ∨
        ((raw.dropWhile (· == '|')).takeWhile isShown).isEmpty then none
      else some ((raw.dropWhile (· == '|')).takeWhile isShown) := rfl
  simp only [htag, blank_iff]
  by_cases hne : body = []
  · have hpipes : raw.dropWhile (· == '|') = [] := by
      rw [h.spells, hne]
      simp
    simp [hpipes, hne]
  have hblank := blank_behind_pipes body
  rw [h.behind_pipes hne, List.any_append, hblank, pipes_solid, Bool.or_false]
  cases hb : body.any isBlank with
  | false => simp
  | true =>
    have hword : (body.dropWhile (· == '|') ++ List.replicate run '|').takeWhile isShown =
        word body := by
      rw [List.takeWhile_append, if_neg (by rw [blank_iff, hblank, hb]; simp), word]
    rw [hword]
    by_cases hw : word body = [] <;> simp [hw]

end

/-- Tag and text share the body out: the tag stands in front, the text is the rest without the
blanks around it, and every other character is in one of them. -/
structure Agrees (raw body : List Char) : Prop where
  tag : (blockTag? raw).getD [] <+: body
  text : blockText raw = trim (body.drop ((blockTag? raw).getD []).length)
  kept : ((blockTag? raw).getD [] ++ blockText raw).filter isShown = body.filter isShown

theorem drop_run (p : Char → Bool) (cs : List Char) :
    cs.drop (cs.takeWhile p).length = cs.dropWhile p := by
  have hdrop := @List.drop_left _ (cs.takeWhile p) (cs.dropWhile p)
  rwa [List.takeWhile_append_dropWhile] at hdrop

theorem filter_parts {tag body : List Char} (h : tag <+: body) :
    (tag ++ trim (body.drop tag.length)).filter isShown = body.filter isShown := by
  obtain ⟨rest, rfl⟩ := h
  rw [List.drop_left, List.filter_append, filter_trim, ← List.filter_append]

theorem word_head {body cs : List Char} {c : Char} (h : word body = c :: cs) : c ≠ '|' := by
  have hstarts : word body <+: body.dropWhile (· == '|') := List.takeWhile_prefix _
  rw [h] at hstarts
  obtain ⟨rest, hrest⟩ := hstarts
  simpa [← hrest] using List.head?_dropWhile_not (· == '|') body

section
variable {raw body : List Char} {run : Nat}

theorem Delimited.agrees (h : Delimited raw run body)
    (hbody : body = [] ∨ body.any isBlank ∧ body.head? ≠ some '|') : Agrees raw body := by
  have htag : (blockTag? raw).getD [] = body.takeWhile isShown := by
    rw [h.tag_eq]
    rcases hbody with rfl | ⟨hblank, hhead⟩
    · simp
    · have hpipes : body.dropWhile (· == '|') = body := by
        cases body with
        | nil => rfl
        | cons c cs => simpa using hhead
      have hword : word body = body.takeWhile isShown := by rw [word, hpipes]
      by_cases hw : word body = []
      · simp [hw, ← hword]
      · rw [if_pos ⟨hblank, hw⟩, hword]
        rfl
  have hstarts : body.takeWhile isShown <+: body := List.takeWhile_prefix _
  have htext : blockText raw = trim (body.drop (body.takeWhile isShown).length) := by
    rw [h.text_eq, drop_run]
  refine ⟨by rwa [htag], by rwa [htag], ?_⟩
  rw [htag, htext, filter_parts hstarts]

theorem Delimited.disagrees (h : Delimited raw run body) (hne : body ≠ [])
    (hbody : body.any isBlank = false ∨ body.head? = some '|') : ¬Agrees raw body := by
  intro hagrees
  obtain ⟨c, cs, rfl⟩ := List.exists_cons_of_ne_nil hne
  by_cases hword : (c :: cs).any isBlank ∧ word (c :: cs) ≠ []
  · -- The body starts with a pipe and its tag does not.
    have hpipe : c = '|' := by simpa using hbody.resolve_left (by simp [hword.1])
    obtain ⟨d, ds, hd⟩ := List.exists_cons_of_ne_nil hword.2
    have hstarts := hagrees.tag
    rw [h.tag_eq, if_pos hword, Option.getD_some, hd] at hstarts
    exact word_head hd ((List.cons_prefix_cons.mp hstarts).1.trans hpipe)
  · -- There is no tag, and the first character of the body is not in the text.
    have hsolid : isBlank c = false := by
      rcases hbody with hnone | hpipe
      · simpa using List.any_eq_false.mp hnone c List.mem_cons_self
      · obtain rfl : c = '|' := by simpa using hpipe
        exact pipe_solid
    have hmark : isShown c = true := by rw [isShown, hsolid, Bool.not_false]
    have hkept := hagrees.kept
    rw [h.tag_eq, if_neg hword, Option.getD_none, List.nil_append, h.text_eq, filter_trim,
      List.dropWhile_cons_of_pos hmark, List.filter_cons_of_pos hmark] at hkept
    have hrest : (cs.dropWhile isShown).Sublist cs := (List.dropWhile_suffix isShown).sublist
    have hless := (hrest.filter isShown).length_le
    rw [hkept] at hless
    simp at hless

end

theorem read_block {afterWord : Bool} {unclosed : List Nat} {c : Char} {cs : List Char}
    (h : (Lexeme.read afterWord unclosed c cs).1 = .ok .blockString) : c = '|' := by
  have hplain : (readPlain c cs).1 ≠ .ok .blockString := fun h => plain_kind h rfl
  unfold Lexeme.read readString readComment at h
  grind

theorem block_head {text : String} {t : Token} (ht : t ∈ (tokenize text).1)
    (hk : t.kind = .blockString) : t.text.head? = some '|' := by
  obtain ⟨r, hr⟩ := tokenize_read ht
  obtain rfl := read_kind hr hk (by simp)
  obtain ⟨afterWord, unclosed, c, cs, hread, -, htext⟩ := hr
  simp [htext, read_block hread.symm]

theorem block_delimited {text : String} {t : Token} (ht : t ∈ (tokenize text).1)
    (hk : t.kind = .blockString) : ∃ run body, Delimited t.text run body := by
  obtain ⟨before, after, hsplit⟩ := List.append_of_mem ht
  have hpipe := block_head ht hk
  have hreads := tokenize_pipes hsplit hpipe
  obtain ⟨cs, hcs⟩ : ∃ cs, spelled (t :: after) = '|' :: cs := by
    obtain ⟨rest, hrest⟩ := List.head?_eq_some_iff.mp hpipe
    exact ⟨rest ++ spelled after, by rw [spelled_cons, hrest, List.cons_append]⟩
  rw [hcs] at hreads
  cases hclosing : closingPipes? cs with
  | none =>
    have hsymbol := (hreads.unclosed (closing_none_iff.mp hclosing)).1
    rw [hk] at hsymbol
    contradiction
  | some k =>
    obtain ⟨n, hclosed, hfirst, -⟩ := closing_some_iff.mp hclosing
    obtain ⟨body, hbody⟩ := closed_delimited (pipeRun_pos cs) hclosed hfirst
    rw [← (hreads.closed n hclosed hfirst).2] at hbody
    exact ⟨_, body, hbody⟩

/-- Tag and text of a block literal, and when they share its body out between them. -/
theorem block_parts (text : String) (t : Token) (ht : t ∈ (tokenize text).1)
    (hk : t.kind = .blockString) :
    ∃ run body, Delimited t.text run body ∧
      blockTag? t.text =
        (if body.any isBlank ∧ word body ≠ [] then some (word body) else none) ∧
      blockText t.text = trim (body.dropWhile isShown) ∧
      (Agrees t.text body ↔ body = [] ∨ body.any isBlank ∧ body.head? ≠ some '|') := by
  obtain ⟨run, body, h⟩ := block_delimited ht hk
  refine ⟨run, body, h, h.tag_eq, h.text_eq, fun hagrees => ?_, h.agrees⟩
  by_contra hnot
  obtain ⟨hne, hbody⟩ := not_or.mp hnot
  refine h.disagrees hne ?_ hagrees
  cases hblank : body.any isBlank with
  | false => exact .inl rfl
  | true => exact .inr (not_not.mp fun hpipe => hbody ⟨hblank, hpipe⟩)

theorem block_parts_tagged :
    (⟨.blockString, 3, "|md # T|".toList⟩ : Token) ∈ (tokenize "x: |md # T|").1 ∧
      ∃ run body, Delimited "|md # T|".toList run body ∧
        blockTag? "|md # T|".toList =
          (if body.any isBlank ∧ word body ≠ [] then some (word body) else none) ∧
        blockText "|md # T|".toList = trim (body.dropWhile isShown) ∧
        (Agrees "|md # T|".toList body ↔
          body = [] ∨ body.any isBlank ∧ body.head? ≠ some '|') := by
  have ht : (⟨.blockString, 3, "|md # T|".toList⟩ : Token) ∈ (tokenize "x: |md # T|").1 := by
    decide +kernel
  exact ⟨ht, block_parts _ _ ht rfl⟩

theorem block_word_lost :
    (tokenize "|md|").1 = [⟨.blockString, 0, "|md|".toList⟩] ∧
      Delimited "|md|".toList 1 "md".toList ∧ blockTag? "|md|".toList = none ∧
      blockText "|md|".toList = [] ∧ ¬Agrees "|md|".toList "md".toList := by
  refine ⟨by decide +kernel, ?_, by decide +kernel, by decide +kernel, fun hagrees => ?_⟩
  · exact ⟨by decide, by decide, by decide, fun _ => ⟨'m', ['d'], by decide, by decide⟩, by decide⟩
  · exact absurd hagrees.kept (by decide +kernel)

end DiagramText.BlockLiterals
