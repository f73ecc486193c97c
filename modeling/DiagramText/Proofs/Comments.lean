import DiagramText.Parse
import DiagramText.Proofs.Lossless
import DiagramText.Proofs.Pruning
import DiagramText.Proofs.Trimming

/-!
# Line comments

A line comment reaches to the end of its line, and no token but a block literal
looks past the end of a line for where it ends. So the text without its line
comments is cut into the other tokens. Comments are trivia in front of a line
break, so leaving them out is an edit, and the tree of the remaining text is
the tree with the comments left out.
-/

set_option autoImplicit false

namespace DiagramText.Comments
open Text Lexeme Scanning Lines Pruning Trimming Layout

theorem quote_local {q : Char} {cs : List Char} {n : Nat} (hq : q ≠ '\\')
    (h : closingQuote? q cs = some n) (zs : List Char) :
    closingQuote? q (cs.take n ++ zs) = some n :=
  (quote_stays hq (quote_take hq h) zs).1

theorem index_local {pattern cs : List Char} {n : Nat} (h : indexOf? pattern cs = some n)
    (zs : List Char) : indexOf? pattern (cs.take (n + pattern.length) ++ zs) = some n :=
  (index_stays (indexOf?_take h) zs).1

theorem quote_line {q : Char} {cs ds : List Char} (hq : q ≠ '\\') (hn : q ≠ '\n')
    (hcs : '\n' ∉ cs) (hds : LineEnd ds) :
    closingQuote? q (cs ++ ds) = closingQuote? q cs := by
  fun_induction closingQuote? q cs with
  | case1 => simp at hcs
  | case2 c cs hc ih =>
    simp only [List.mem_cons, not_or] at hcs
    simp [closingQuote?, hc, ih hcs.2.2]
  | case3 cs hne => rw [List.cons_append, quote_step hq, if_pos rfl]
  | case4 c cs hne hcq hc =>
    obtain rfl : c = '\\' := hc.resolve_left fun hc => hcs (by simp [hc])
    cases cs with
    | cons d cs => exact absurd rfl (hne d cs rfl)
    | nil =>
      cases ds with
      | nil => simp [closingQuote?, hcq]
      | cons d ds =>
        obtain rfl : d = '\n' := hds
        simp [closingQuote?]
  | case5 c cs hne hcq hc ih =>
    simp only [List.mem_cons, not_or] at hcs hc
    rw [List.cons_append, quote_step hc.2, if_neg hcq, if_neg hc.1, ih hcs.2]
  | case6 =>
    cases ds with
    | nil => rfl
    | cons d ds =>
      obtain rfl : d = '\n' := hds
      rw [List.nil_append, quote_step (by decide), if_neg hn.symm, if_pos rfl]

theorem line_join {cs ds : List Char} (hcs : '\n' ∉ cs) (hds : LineEnd ds) :
    lineLength (cs ++ ds) = cs.length := by
  have hall : ∀ c ∈ cs, decide (c ≠ '\n') = true := fun c hc =>
    decide_eq_true fun h => hcs (h ▸ hc)
  rw [lineLength, List.takeWhile_append_of_pos hall, end_run (by simp) hds, List.append_nil]

theorem string_pruned {q : Char} {cs ds : List Char} (hq : q ≠ '\\') (hn : q ≠ '\n')
    (h : Pruned '#' (cs.drop (readString q cs).2) ds) :
    readString q (cs.take (readString q cs).2 ++ ds) = readString q cs := by
  unfold readString at h ⊢
  cases hc : closingQuote? q cs with
  | some n =>
    simp only [quote_local hq hc]
  | none =>
    rw [hc] at h
    have hdrop := line_drop cs
    have hline := line_take cs
    have hopen : closingQuote? q (cs.take (lineLength cs) ++ ds) = none := by
      rw [quote_line hq hn hline (pruned_end (by decide) h hdrop), ← quote_line hq hn hline hdrop,
        List.take_append_drop, hc]
    have hlength : lineLength (cs.take (lineLength cs) ++ ds) = lineLength cs := by
      rw [line_join hline (pruned_end (by decide) h hdrop), List.length_take,
        Nat.min_eq_left (line_le cs)]
    simp only [hopen, hlength]

theorem comment_pruned {cs ds : List Char} (hopen : ['"', '"'].isPrefixOf cs = true)
    (h : Pruned '#' (cs.drop (readComment cs).2) ds) :
    readComment (cs.take (readComment cs).2 ++ ds) = readComment cs := by
  unfold readComment at h ⊢
  cases hc : indexOf? ['"', '"', '"'] (cs.drop 2) with
  | none =>
    -- the fault takes all of the text
    rw [hc] at h
    simp only [List.drop_length] at h
    cases h
    simp only [List.take_length, List.append_nil, hc]
  | some n =>
    have hlength : 2 ≤ (cs.take (n + 5)).length := by
      have htwo := (List.isPrefixOf_iff_prefix.mp hopen).length_le
      simp only [List.length_cons, List.length_nil, List.length_take] at htwo ⊢
      omega
    have hsame : indexOf? ['"', '"', '"'] ((cs.take (n + 5) ++ ds).drop 2) = some n := by
      rw [List.drop_append_of_le_length hlength, List.drop_take]
      exact index_local hc ds
    simp only [hsame]

theorem pipes_pruned {cs ds : List Char} (h : Pruned '#' (cs.drop (readPipes cs).2) ds) :
    readPipes (cs.take (readPipes cs).2 ++ ds) = readPipes cs := by
  have hall : Pruned '#' cs (cs.take (readPipes cs).2 ++ ds) := by
    have hjoin := pruned_append (cs.take (readPipes cs).2) h
    rwa [List.take_append_drop] at hjoin
  have hrun := pipe_run_pruned (by decide) (by decide) hall
  have hbound := pipe_run_bound cs
  unfold readPipes closingPipes? at *
  generalize hk : Literal.pipeRun ('|' :: cs) = k at *
  cases hc : indexOf? (List.replicate k '|') (cs.drop (k - 1)) with
  | none =>
    have hnone := index_pruned (pipe_pattern (by decide) k) (pipe_pattern (by decide) k)
      (by decide) (drop_pruned (p := (· == '|')) rfl hall hbound) hc
    simp only [hc, Option.map_none] at hnone hrun ⊢
    simp only [hrun, hnone, Option.map_none]
  | some n =>
    have hlength : k - 1 ≤ (cs.take (k - 1 + n + k)).length := by
      have hrun_le := (List.takeWhile_prefix (· == '|') (l := cs)).length_le
      rw [List.length_take]
      omega
    have hdrop : (cs.take (k - 1 + n + k) ++ ds).drop (k - 1) =
        (cs.drop (k - 1)).take (n + k) ++ ds := by
      rw [List.drop_append_of_le_length hlength, List.drop_take, Nat.add_assoc (k - 1) n k,
        Nat.add_sub_cancel_left]
    have hsame := index_local hc ds
    rw [List.length_replicate] at hsame
    simp only [hc, Option.map_some] at hrun ⊢
    simp only [hrun, hdrop, hsame, Option.map_some]

theorem plain_pruned {c : Char} {cs ds : List Char} (hc : c ≠ '#') (h : Pruned '#' cs ds) :
    readPlain c ds = readPlain c cs := by
  have hspaces := run_pruned (p := isSpace) (by decide) (by decide) (by decide) h
  have hconnector := connector_pruned (by decide) (by decide) (by decide) c h
  have hword := word_pruned (by decide) (by decide) (by decide) h
  simp only [readPlain, hconnector, hspaces, hword, if_neg hc]

theorem read_other {c : Char} (hc : c ≠ '#') (afterWord : Bool) (unclosed : List Nat)
    (cs : List Char) : kind (Lexeme.read afterWord unclosed c cs).1 ≠ .comment := by
  have hplain : kind (readPlain c cs).1 ≠ .comment := by
    have hsign : isSign .comment = false := rfl
    unfold readPlain
    grind [connector_sign, punctuation_sign, kind]
  unfold Lexeme.read readString readComment readPipes
  grind [kind]

theorem read_hash (afterWord : Bool) (unclosed : List Nat) (cs : List Char) :
    Lexeme.read afterWord unclosed '#' cs = (.ok .comment, lineLength cs) := by
  simp [Lexeme.read, readPlain, connector?, show isBlank '#' = false by decide]

theorem read_pruned {afterWord : Bool} {unclosed : List Nat} {c : Char} {cs ds : List Char}
    (hc : c ≠ '#') (h : Pruned '#' (cs.drop (Lexeme.read afterWord unclosed c cs).2) ds) :
    Lexeme.read afterWord unclosed c (cs.take (Lexeme.read afterWord unclosed c cs).2 ++ ds) =
      Lexeme.read afterWord unclosed c cs := by
  have hall : Pruned '#' cs (cs.take (Lexeme.read afterWord unclosed c cs).2 ++ ds) := by
    have hjoin := pruned_append (cs.take (Lexeme.read afterWord unclosed c cs).2) h
    rwa [List.take_append_drop] at hjoin
  have hopen := prefix_pruned ['"', '"'] (by decide) (by decide) (by decide) hall
  have hrun := pipe_run_pruned (by decide) (by decide) hall
  have hplain := plain_pruned hc hall
  unfold Lexeme.read at *
  by_cases hq : c = '"'
  · subst hq
    simp only [if_true] at *
    rw [hopen]
    split
    · next hquotes =>
      simp only [if_pos hquotes] at *
      exact comment_pruned hquotes h
    · next hquotes =>
      simp only [if_neg hquotes] at *
      exact string_pruned (by decide) (by decide) h
  simp only [if_neg hq] at *
  by_cases ha : c = '\''
  · subst ha
    simp only [if_true] at *
    split
    · rfl
    · next hw =>
      simp only [if_neg hw] at *
      exact string_pruned (by decide) (by decide) h
  simp only [if_neg ha] at *
  by_cases hb : c = '|'
  · subst hb
    simp only [if_true] at *
    rw [hrun]
    split
    · rfl
    · next hmemo =>
      simp only [if_neg hmemo] at *
      exact pipes_pruned h
  simp only [if_neg hb] at *
  exact hplain

theorem string_le {q : Char} (hq : q ≠ '\\') (cs : List Char) :
    (readString q cs).2 ≤ cs.length := by
  unfold readString
  split
  · next hc => exact (quote_stays hq hc []).2
  · exact line_le cs

theorem comment_le {cs : List Char} (hopen : ['"', '"'].isPrefixOf cs = true) :
    (readComment cs).2 ≤ cs.length := by
  have htwo := (List.isPrefixOf_iff_prefix.mp hopen).length_le
  unfold readComment
  split
  · next n hc =>
    have hle := (index_stays hc []).2
    simp only [List.length_cons, List.length_nil, List.length_drop] at htwo hle ⊢
    omega
  · exact le_rfl

theorem read_le (afterWord : Bool) (unclosed : List Nat) (c : Char) (cs : List Char) :
    (Lexeme.read afterWord unclosed c cs).2 ≤ cs.length := by
  unfold Lexeme.read
  split
  · next hq =>
    split
    · next hquotes => exact comment_le hquotes
    · exact string_le (by simp [hq]) cs
  split
  · next ha =>
    split
    · exact Nat.zero_le _
    · exact string_le (by simp [ha]) cs
  split
  · split
    · exact Nat.zero_le _
    · unfold readPipes
      split
      · next hc => exact (pipes_stay hc []).2
      · exact Nat.zero_le _
  · exact (plain_same c cs []).2

/-- What a token leaves when comments go. -/
def bare (t : Token) : List Char := if t.kind = .comment then [] else t.text

theorem bare_comment {t : Token} (h : t.kind = .comment) : bare t = [] := if_pos h

theorem bare_other {t : Token} (h : t.kind ≠ .comment) : bare t = t.text := if_neg h

theorem next_comment {s u : Scanner} {t : Token} (h : s.next? = some (t, u))
    (ht : t.kind = .comment) :
    (∃ xs, t.text = '#' :: xs) ∧ LineEnd u.rest ∧ u.unclosed = s.unclosed ∧
      u.diagnostics = s.diagnostics := by
  obtain ⟨c, cs, -, rfl, rfl⟩ := next_cons h
  have hc : c = '#' := by
    by_contra hc
    exact read_other hc s.afterWord s.unclosed cs ht
  subst hc
  rw [read_hash] at ht ⊢
  exact ⟨⟨_, rfl⟩, line_drop cs, rfl, List.append_nil _⟩

theorem drain_pruned (s : Scanner) : Pruned '#' s.rest (s.drain.1.flatMap bare) := by
  fun_induction Scanner.drain s with
  | case1 s h =>
    rw [next_none.mp h]
    exact .nil
  | case2 s t u h rest ih =>
    obtain ⟨-, -, -, hrest⟩ := next_cuts h
    rw [hrest, List.flatMap_cons]
    by_cases ht : t.kind = .comment
    · obtain ⟨⟨xs, htext⟩, hend, -⟩ := next_comment h ht
      rw [bare_comment ht, htext]
      exact .cut xs hend ih
    · rw [bare_other ht]
      exact pruned_append t.text ih

/-- Leaves the comments out. -/
abbrev uncomment (ts : List Token) : Edit := trimming bare ts

/-- The second scanner reads what the first does, less the comments of the row, and stands at
the place where the edit puts the first. -/
structure Skips (ts : List Token) (s s' : Scanner) : Prop where
  ahead : s.drain.1 <:+ ts
  rest : s'.rest = s.drain.1.flatMap bare
  offset : s'.offset = (uncomment ts).offset s.offset
  afterWord : s'.afterWord = s.afterWord ∨ LineEnd s.rest
  unclosed : s'.unclosed = s.unclosed
  diagnostics : s'.diagnostics = s.diagnostics.map (uncomment ts).diagnostic

section

variable {ts : List Token} {s s' u : Scanner} {t : Token}

theorem skips_end (h : Skips ts s s') (hnone : s.next? = none) : s'.next? = none := by
  rw [next_none, h.rest, drain_end hnone]
  rfl

theorem skips_comment (hts : Tiled 0 ts) (h : Skips ts s s') (hnext : s.next? = some (t, u))
    (ht : t.kind = .comment) : Skips ts u s' := by
  have hdrain : s.drain.1 = t :: u.drain.1 := congrArg Prod.fst (drain_next hnext)
  have hmem : t ∈ ts := h.ahead.subset (by simp [hdrain])
  obtain ⟨hstart, hne, hstop, -⟩ := next_cuts hnext
  obtain ⟨-, hend, hunclosed, hdiagnostics⟩ := next_comment hnext ht
  have hbare := bare_comment ht
  constructor
  · exact (List.suffix_cons t u.drain.1).trans (hdrain ▸ h.ahead)
  · rw [h.rest, hdrain, List.flatMap_cons, hbare]
    rfl
  · rw [h.offset, hstop, offset_stop hts hmem (by simp [hbare]) hne, hbare, hstart]
    rfl
  · exact .inr hend
  · rw [h.unclosed, hunclosed]
  · rw [h.diagnostics, hdiagnostics]

theorem skips_token (hts : Tiled 0 ts) (h : Skips ts s s') (hnext : s.next? = some (t, u))
    (ht : t.kind ≠ .comment) :
    ∃ u', s'.next? = some ({ t with start := (uncomment ts).offset t.start }, u') ∧
      Skips ts u u' := by
  have hdrain : s.drain.1 = t :: u.drain.1 := congrArg Prod.fst (drain_next hnext)
  have hmem : t ∈ ts := h.ahead.subset (by simp [hdrain])
  have hpruned := drain_pruned u
  have hbare := bare_other ht
  have hinside (k : Nat) (hk : k ≤ byteSize t.text) := offset_inside hts hmem hbare hk
  obtain ⟨c, cs, hr, htoken, hu⟩ := next_cons hnext
  have hc : c ≠ '#' := by
    rintro rfl
    rw [read_hash] at htoken
    exact ht (congrArg Token.kind htoken)
  have hahead : u.rest = cs.drop (Lexeme.read s.afterWord s.unclosed c cs).2 := by rw [hu]
  rw [hahead] at hpruned
  have hread : Lexeme.read s'.afterWord s'.unclosed c
      (cs.take (Lexeme.read s.afterWord s.unclosed c cs).2 ++ u.drain.1.flatMap bare) =
        Lexeme.read s.afterWord s.unclosed c cs := by
    rw [h.unclosed, read_either hr h.afterWord, read_pruned hc hpruned]
  have hlength := read_le s.afterWord s.unclosed c cs
  generalize Lexeme.read s.afterWord s.unclosed c cs = lexeme at *
  have hall := pruned_append (cs.take lexeme.2) hpruned
  rw [List.take_append_drop] at hall
  have hrest : s'.rest = c :: (cs.take lexeme.2 ++ u.drain.1.flatMap bare) := by
    rw [h.rest, hdrain, List.flatMap_cons, hbare, htoken]
    rfl
  have hmoved : (⟨kind lexeme.1, s'.offset, c :: cs.take lexeme.2⟩ : Token) =
      { t with start := (uncomment ts).offset t.start } := by rw [htoken, h.offset]
  have hstep := next_read (r := lexeme.1) hrest
    (by rw [hread, List.length_take, Nat.min_eq_left hlength])
  rw [hmoved] at hstep
  refine ⟨_, hstep, ?_, rfl, ?_, .inl ?_, ?_, ?_⟩
  · exact (List.suffix_cons t u.drain.1).trans (hdrain ▸ h.ahead)
  · rw [hu]
    exact (hinside _ le_rfl).symm
  · rw [hu, htoken]
  · have hunclosed : u.unclosed = Scanner.noteUnclosed s.unclosed t cs := by rw [hu]
    rw [hunclosed]
    have hrun := pipe_run_pruned (by decide) (by decide) hall
    simp only [Scanner.noteUnclosed, hrun, h.unclosed]
  · rw [hu, h.diagnostics, List.map_append, faults_edited hinside]

theorem token_left (ht : t.kind = .comment) : (uncomment ts).token t = none :=
  if_pos (bare_comment ht)

theorem token_moved (ht : t.kind ≠ .comment) (hne : t.text ≠ []) :
    (uncomment ts).token t = some { t with start := (uncomment ts).offset t.start } := by
  have hbare := bare_other ht
  show (if bare t = [] then none else some _) = _
  rw [if_neg (by rwa [hbare]), hbare]
  rfl

theorem skips_next (hts : Tiled 0 ts) (h : Skips ts s s') (hnext : s.next? = some (t, u)) :
    (uncomment ts).token t = none ∧ Skips ts u s' ∨
      ∃ v u', (uncomment ts).token t = some v ∧ s'.next? = some (v, u') ∧ Skips ts u u' := by
  by_cases ht : t.kind = .comment
  · exact .inl ⟨token_left ht, skips_comment hts h hnext ht⟩
  · obtain ⟨u', hnext', hskips⟩ := skips_token hts h hnext ht
    exact .inr ⟨_, u', token_moved ht (next_cuts hnext).2.1, hnext', hskips⟩

end

/-- The text of all tokens other than comments. -/
def uncommented (text : String) : String :=
  String.ofList (spelled ((tokenize text).1.filter (·.kind != .comment)))

theorem bare_spelled (ts : List Token) :
    ts.flatMap bare = spelled (ts.filter (·.kind != .comment)) := by
  induction ts with
  | nil => rfl
  | cons t ts ih =>
    by_cases ht : t.kind = .comment
    · simp [bare_comment ht, ht, ih]
    · simp [bare_other ht, ht, ih]

theorem uncommented_skips (text : String) :
    Skips (tokenize text).1 (.ofText text) (.ofText (uncommented text)) := by
  refine ⟨List.suffix_rfl, ?_, (offset_zero _).symm, .inl rfl, rfl, rfl⟩
  rw [Scanner.ofText, uncommented, String.toList_ofList, ← bare_spelled]
  rfl

theorem tokenize_uncommented (text : String) :
    (tokenize (uncommented text)).1 = (uncomment (tokenize text).1).row (tokenize text).1 ∧
      (tokenize (uncommented text)).2 =
        (tokenize text).2.map (uncomment (tokenize text).1).diagnostic ∧
      (uncommented text).utf8ByteSize =
        (uncomment (tokenize text).1).offset text.utf8ByteSize := by
  have hts := (tokenize_covers text).1
  obtain ⟨hrow, hlast⟩ := drain_edited (fun _ _ => skips_end) (fun _ _ _ _ => skips_next hts)
    (.ofText text) (.ofText (uncommented text)) (uncommented_skips text)
  refine ⟨hrow, hlast.diagnostics, ?_⟩
  have hoffset := hlast.offset
  rw [drain_offset, drain_offset] at hoffset
  simpa [Scanner.ofText, byteSize_toList] using hoffset

theorem newline_ahead {s : Scanner} (h : LineEnd s.rest) : Edit.AtBreak s.drain.1 := by
  cases hr : s.rest with
  | nil =>
    rw [drain_end (next_none.mpr hr)]
    trivial
  | cons c cs =>
    rw [hr] at h
    obtain rfl : c = '\n' := h
    rw [drain_next (newline_next hr)]
    rfl

theorem uncomment_fits {ts : List Token} {size : Nat} (hts : Tiled 0 ts) (s : Scanner)
    (ahead : s.drain.1 <:+ ts) (hc : Covers s.offset s.drain.1 size) :
    (uncomment ts).Fits size s.drain.1 := by
  fun_induction Scanner.drain s with
  | case1 s h => exact .nil
  | case2 s t u h rest ih =>
    have hmem : t ∈ ts := ahead.subset List.mem_cons_self
    obtain ⟨hstart, hne, hcovers⟩ := covers_cons.mp hc
    have hrest := ih ((List.suffix_cons t _).trans ahead) (by rwa [(next_cuts h).2.2.1])
    by_cases ht : t.kind = .comment
    · have hwidth := @offset_stop bare ts t hts hmem (by simp [bare_comment ht]) hne
      rw [bare_comment ht] at hwidth
      exact .leave (token_left ht) (by rw [Token.isTrivia, ht]; rfl)
        (newline_ahead (next_comment h ht).2.1) hwidth.symm (offset_covers hcovers).symm hrest
    · have hstop := @offset_stop bare ts t hts hmem (by simp [bare_other ht]) hne
      rw [bare_other ht] at hstop
      exact .keep (token_moved ht hne) ⟨.inl rfl, rfl, hstop.symm, rfl, fun _ => rfl⟩ hrest

theorem row_uncommented {ts : List Token} (hne : ∀ t ∈ ts, t.text ≠ []) (us : List Token) :
    (uncomment us).row ts = (ts.filter (·.kind != .comment)).map fun t =>
      { t with start := (uncomment us).offset t.start } := by
  induction ts with
  | nil => rfl
  | cons t ts ih =>
    obtain ⟨hhead, htail⟩ := List.forall_mem_cons.mp hne
    by_cases ht : t.kind = .comment
    · rw [Edit.row_leave (token_left ht), ih htail, List.filter_cons_of_neg (by simp [ht])]
    · rw [Edit.row_keep (token_moved ht hhead), ih htail, List.filter_cons_of_pos (by simp [ht])]
      rfl

/-- Leaving out the comments of a text leaves them out of its tokens and its tree, and moves
all other tokens, nodes and diagnostics up to close the gaps. -/
theorem parse_uncommented (text : String) :
    (tokenize (uncommented text)).1 =
        ((tokenize text).1.filter (·.kind != .comment)).map (fun t =>
          { t with start := (uncomment (tokenize text).1).offset t.start }) ∧
      [(parse (uncommented text)).tree] =
        (uncomment (tokenize text).1).tree (parse text).tree ∧
      nodeSpans [(parse (uncommented text)).tree] =
        (nodeSpans [(parse text).tree]).map (fun n =>
          (n.1, (uncomment (tokenize text).1).span n.2)) ∧
      (parse (uncommented text)).diagnostics =
        (parse text).diagnostics.map (uncomment (tokenize text).1).diagnostic ∧
      (parse (uncommented text)).diagnostics.map (fun d => (d.code, d.message)) =
        (parse text).diagnostics.map (fun d => (d.code, d.message)) := by
  have hcovers := tokenize_covers text
  obtain ⟨htokens, hfaults, hsize⟩ := tokenize_uncommented text
  have hfits : (uncomment (tokenize text).1).Fits text.utf8ByteSize (tokenize text).1 :=
    uncomment_fits hcovers.1 (.ofText text) List.suffix_rfl hcovers
  obtain ⟨htree, hdiagnostics⟩ := parse_edited hfits (offset_zero _) htokens hfaults hsize
  refine ⟨?_, htree, ?_, hdiagnostics, ?_⟩
  · rw [htokens]
    exact row_uncommented (tiled_filled hcovers.1) _
  · obtain ⟨hplaced, hall, -⟩ := Lossless.root_placed text
    have hlands := fits_lands hfits
    have hspans := @spans_edited (uncomment (tokenize text).1) _ _ hplaced (by rwa [hall])
    rw [htree]
    rwa [Edit.trees, Edit.trees, List.append_nil] at hspans
  · rw [hdiagnostics, List.map_map]
    rfl

end DiagramText.Comments
