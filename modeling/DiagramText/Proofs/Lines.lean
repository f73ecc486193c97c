import DiagramText.Proofs.Relabelling
import DiagramText.Proofs.Scanning

/-!
# Scanning across a newline

A lexeme that is read without a fault ends at the same place when the text goes
on with a newline, and only a block literal or a comment that is closed already
reaches past one. So a text without faults and without stray pipes is cut into
the same tokens in front of a newline, and the text behind it is scanned as if
it stood alone, further on.
-/

set_option autoImplicit false

namespace DiagramText.Lines
open Text Lexeme Measures Scanning

theorem quote_step {q c : Char} (hc : c ≠ '\\') (cs : List Char) :
    closingQuote? q (c :: cs) =
      if c = q then some 1
      else if c = '\n' then none
      else (closingQuote? q cs).map (· + 1) := by
  rw [closingQuote?]
  · simp [hc]
  · intro d ds hd
    exact absurd hd hc

theorem quote_stays {q : Char} {cs : List Char} {n : Nat} (hq : q ≠ '\\')
    (h : closingQuote? q cs = some n) (zs : List Char) :
    closingQuote? q (cs ++ zs) = some n ∧ n ≤ cs.length := by
  fun_induction closingQuote? q cs generalizing n with
  | case1 => simp at h
  | case2 c cs hc ih =>
    obtain ⟨m, hm, rfl⟩ := Option.map_eq_some_iff.mp h
    obtain ⟨hlong, hle⟩ := ih hm
    refine ⟨?_, by simp only [List.length_cons]; omega⟩
    simp [closingQuote?, hc, hlong]
  | case3 cs hne =>
    obtain rfl : 1 = n := by simpa using h
    refine ⟨?_, by simp⟩
    rw [List.cons_append, quote_step hq, if_pos rfl]
  | case4 => simp at h
  | case5 c cs hne hcq hn ih =>
    obtain ⟨m, hm, rfl⟩ := Option.map_eq_some_iff.mp h
    obtain ⟨hlong, hle⟩ := ih hm
    refine ⟨?_, by simp only [List.length_cons]; omega⟩
    simp only [not_or] at hn
    rw [List.cons_append, quote_step hn.2, if_neg hcq, if_neg hn.1, hlong]
    rfl
  | case6 => simp at h

theorem quote_take {q : Char} {cs : List Char} {n : Nat} (hq : q ≠ '\\')
    (h : closingQuote? q cs = some n) : closingQuote? q (cs.take n) = some n := by
  fun_induction closingQuote? q cs generalizing n with
  | case1 => simp at h
  | case2 c cs hc ih =>
    obtain ⟨m, hm, rfl⟩ := Option.map_eq_some_iff.mp h
    simp [closingQuote?, hc, ih hm]
  | case3 cs hne =>
    obtain rfl : 1 = n := by simpa using h
    rw [List.take_succ_cons, quote_step hq, if_pos rfl]
  | case4 => simp at h
  | case5 c cs hne hcq hn ih =>
    obtain ⟨m, hm, rfl⟩ := Option.map_eq_some_iff.mp h
    simp only [not_or] at hn
    rw [List.take_succ_cons, quote_step hn.2, if_neg hcq, if_neg hn.1, ih hm]
    rfl
  | case6 => simp at h

theorem quote_unbroken {q : Char} {cs : List Char} {n : Nat} (hq : q ≠ '\n')
    (h : closingQuote? q cs = some n) : '\n' ∉ cs.take n := by
  fun_induction closingQuote? q cs generalizing n with
  | case1 => simp at h
  | case2 c cs hc ih =>
    obtain ⟨m, hm, rfl⟩ := Option.map_eq_some_iff.mp h
    simp [ih hm, Ne.symm hc]
  | case3 cs hne =>
    obtain rfl : 1 = n := by simpa using h
    simpa using hq.symm
  | case4 => simp at h
  | case5 c cs hne hcq hn ih =>
    obtain ⟨m, hm, rfl⟩ := Option.map_eq_some_iff.mp h
    simp only [not_or] at hn
    simp [ih hm, Ne.symm hn.1]
  | case6 => simp at h

theorem index_stays {pattern cs : List Char} {n : Nat} (h : indexOf? pattern cs = some n)
    (zs : List Char) :
    indexOf? pattern (cs ++ zs) = some n ∧ n + pattern.length ≤ cs.length := by
  obtain ⟨hstands, hfirst⟩ := indexOf?_eq_some_iff.mp h
  have hle : n + pattern.length ≤ cs.length := by
    have hlength := hstands.length_le
    rw [List.length_drop] at hlength
    rcases Nat.eq_zero_or_pos n with rfl | hn
    · omega
    · have hne : pattern ≠ [] := fun hp => hfirst 0 hn (hp ▸ List.nil_prefix)
      have hpos := List.length_pos_iff.mpr hne
      omega
  refine ⟨indexOf?_eq_some_iff.mpr ⟨?_, fun m hm hagain => hfirst m hm ?_⟩, hle⟩
  · rw [List.drop_append_of_le_length (by omega)]
    exact hstands.trans (List.prefix_append _ _)
  · -- the pattern fits in front of the added text, where it does not stand
    rw [List.drop_append_of_le_length (by omega)] at hagain
    refine List.prefix_of_prefix_length_le hagain (List.prefix_append _ _) ?_
    rw [List.length_drop]
    omega

theorem pipes_run (cs ys : List Char) :
    Literal.pipeRun ('|' :: (cs ++ '\n' :: ys)) = Literal.pipeRun ('|' :: cs) := by
  have h := takeWhile_stops (p := (· == '|')) (x := '\n') rfl ('|' :: cs) ys
  rw [Literal.pipeRun, ← List.cons_append, h]
  rfl

theorem pipes_stay {cs : List Char} {n : Nat} (h : closingPipes? cs = some n) (ys : List Char) :
    closingPipes? (cs ++ '\n' :: ys) = some n ∧ n ≤ cs.length := by
  have hrun : Literal.pipeRun ('|' :: cs) - 1 ≤ cs.length := by
    have hw := (List.takeWhile_prefix (· == '|') (l := '|' :: cs)).length_le
    simp only [Literal.pipeRun, List.length_cons] at hw ⊢
    omega
  simp only [closingPipes?, pipes_run] at h ⊢
  obtain ⟨m, hm, rfl⟩ := Option.map_eq_some_iff.mp h
  obtain ⟨hlong, hle⟩ := index_stays hm ('\n' :: ys)
  rw [List.drop_append_of_le_length hrun, hlong]
  simp only [List.length_replicate, List.length_drop] at hle
  exact ⟨rfl, by omega⟩

theorem line_length (cs ys : List Char) : lineLength (cs ++ '\n' :: ys) = lineLength cs := by
  rw [lineLength, takeWhile_stops (by simp)]
  rfl

theorem line_le (cs : List Char) : lineLength cs ≤ cs.length :=
  (List.takeWhile_prefix _).length_le

theorem word_step {c : Char} (hc : c ≠ '-') (cs : List Char) :
    wordLength (c :: cs) = if isWordChar c then wordLength cs + 1 else 0 := by
  rw [wordLength]
  intro d ds hd
  exact absurd hd hc

theorem word_length (cs ys : List Char) :
    wordLength (cs ++ '\n' :: ys) = wordLength cs ∧ wordLength cs ≤ cs.length := by
  have hn : isWordChar '\n' = false := by decide
  fun_induction wordLength cs with
  | case1 c cs hc ih => simp [wordLength, hc, ih.1, ih.2]
  | case2 c cs hc => simp [wordLength, hc]
  | case3 c cs hne hc ih =>
    have hhyphen : c ≠ '-' := by
      rintro rfl
      exact absurd hc (by decide)
    rw [List.cons_append, word_step hhyphen, if_pos hc, ih.1]
    exact ⟨rfl, Nat.succ_le_succ ih.2⟩
  | case4 c cs hne hc =>
    refine ⟨?_, Nat.zero_le _⟩
    by_cases hhyphen : c = '-'
    · subst hhyphen
      cases cs with
      | nil => simp [wordLength, hn]
      | cons d ds => exact absurd rfl (hne d ds rfl)
    · rw [List.cons_append, word_step hhyphen, if_neg hc]
  | case5 => simp [wordLength, hn]

theorem space_length (cs ys : List Char) :
    (cs ++ '\n' :: ys).takeWhile isSpace = cs.takeWhile isSpace :=
  takeWhile_stops (by decide) cs ys

theorem connector_same (c : Char) (cs ys : List Char) :
    connector? c (cs ++ '\n' :: ys) = connector? c cs := by
  match cs with
  | [] => simp [connector?, List.isPrefixOf]
  | [a] => simp [connector?, List.isPrefixOf]
  | a :: b :: cs => simp [connector?, List.isPrefixOf]

theorem connector_le {c : Char} {cs : List Char} {k : TokenKind} {n : Nat}
    (h : connector? c cs = some (k, n)) : n ≤ cs.length := by
  have length_le {pattern : List Char} (hp : pattern.isPrefixOf cs = true) :
      pattern.length ≤ cs.length := (List.isPrefixOf_iff_prefix.mp hp).length_le
  unfold connector? at h
  split at h
  · split at h
    · next hp => simpa [← (Prod.mk.inj (Option.some.inj h)).2] using length_le hp
    · split at h
      · next hp => simpa [← (Prod.mk.inj (Option.some.inj h)).2] using length_le hp
      · simp at h
  · split at h
    · split at h
      · next hp => simpa [← (Prod.mk.inj (Option.some.inj h)).2] using length_le hp
      · split at h
        · next hp => simpa [← (Prod.mk.inj (Option.some.inj h)).2] using length_le hp
        · simp at h
    · simp at h

theorem plain_same (c : Char) (cs ys : List Char) :
    readPlain c (cs ++ '\n' :: ys) = readPlain c cs ∧ (readPlain c cs).2 ≤ cs.length := by
  unfold readPlain
  rw [connector_same]
  cases hc : connector? c cs with
  | some kn => exact ⟨rfl, connector_le hc⟩
  | none =>
    simp only [space_length, line_length, (word_length cs ys).1]
    refine ⟨trivial, ?_⟩
    split
    · exact Nat.zero_le _
    split
    · exact (List.takeWhile_prefix _).length_le
    split
    · exact line_le cs
    split
    · exact (word_length cs ys).2
    split
    · exact Nat.zero_le _
    · split <;> exact Nat.zero_le _

theorem string_same {q : Char} (hq : q ≠ '\\') {cs : List Char} {k : TokenKind}
    (h : (readString q cs).1 = .ok k) (ys : List Char) :
    readString q (cs ++ '\n' :: ys) = readString q cs ∧ (readString q cs).2 ≤ cs.length := by
  unfold readString at h ⊢
  cases hc : closingQuote? q cs with
  | none => simp [hc] at h
  | some n =>
    obtain ⟨hlong, hle⟩ := quote_stays hq hc ('\n' :: ys)
    rw [hlong]
    exact ⟨rfl, hle⟩

theorem comment_same {cs : List Char} {k : TokenKind} (hp : ['"', '"'].isPrefixOf cs = true)
    (h : (readComment cs).1 = .ok k) (ys : List Char) :
    readComment (cs ++ '\n' :: ys) = readComment cs ∧ (readComment cs).2 ≤ cs.length := by
  have hlen : 2 ≤ cs.length := (List.isPrefixOf_iff_prefix.mp hp).length_le
  unfold readComment at h ⊢
  cases hc : indexOf? ['"', '"', '"'] (cs.drop 2) with
  | none => simp [hc] at h
  | some n =>
    obtain ⟨hlong, hle⟩ := index_stays hc ('\n' :: ys)
    rw [List.drop_append_of_le_length hlen, hlong]
    simp only [List.length_drop, List.length_cons, List.length_nil] at hle
    exact ⟨rfl, by simp only; omega⟩

/-- A lexeme without a fault ends at the same place in front of a newline, unless it is a pipe
that opens nothing yet. -/
theorem read_same {afterWord : Bool} {c : Char} {cs : List Char} {k : TokenKind}
    (h : (Lexeme.read afterWord [] c cs).1 = .ok k) (hp : c = '|' → k ≠ .symbol)
    (ys : List Char) :
    Lexeme.read afterWord [] c (cs ++ '\n' :: ys) = Lexeme.read afterWord [] c cs ∧
      (Lexeme.read afterWord [] c cs).2 ≤ cs.length := by
  unfold Lexeme.read at h ⊢
  by_cases hq : c = '"'
  · simp only [if_pos hq] at h ⊢
    have hopens : ['"', '"'].isPrefixOf (cs ++ '\n' :: ys) = ['"', '"'].isPrefixOf cs := by
      match cs with
      | [] => rfl
      | [a] => simp [List.isPrefixOf]
      | a :: b :: cs => simp [List.isPrefixOf]
    rw [hopens]
    split at h
    · next hquotes =>
      rw [if_pos hquotes]
      simpa only [if_pos hquotes] using comment_same hquotes h ys
    · next hquotes =>
      rw [if_neg hquotes]
      simpa only [if_neg hquotes] using string_same (by simp [hq]) h ys
  simp only [if_neg hq] at h ⊢
  by_cases ha : c = '\''
  · simp only [if_pos ha] at h ⊢
    split at h
    · next hw => simp [hw]
    · next hw => simpa only [if_neg hw] using string_same (by simp [ha]) h ys
  simp only [if_neg ha] at h ⊢
  by_cases hb : c = '|'
  · simp only [if_pos hb, List.contains_nil, Bool.false_eq_true, if_false] at h ⊢
    unfold readPipes at h ⊢
    cases hc : closingPipes? cs with
    | none =>
      rw [hc] at h
      exact absurd (Except.ok.inj h).symm (hp hb)
    | some n =>
      obtain ⟨hlong, hle⟩ := pipes_stay hc ys
      rw [hlong]
      exact ⟨rfl, hle⟩
  · simp only [if_neg hb]
    exact plain_same c cs ys

/-- A pipe that opens no block literal. -/
def isStrayPipe (t : Token) : Bool := t.kind == .symbol && t.text == ['|']

/-- The same scanner, with a newline and more text behind what it has to read. -/
def lengthen (ys : List Char) (s : Scanner) : Scanner := { s with rest := s.rest ++ '\n' :: ys }

theorem next_grows {s s' : Scanner} {t : Token} (h : s.next? = some (t, s')) :
    s.diagnostics <+: s'.diagnostics := by
  obtain ⟨r, -, hreports⟩ := next_reports h
  rw [hreports]
  exact List.prefix_append _ _

theorem drain_grows (s : Scanner) : s.diagnostics <+: s.drain.2.diagnostics := by
  fun_induction Scanner.drain s with
  | case1 s h => exact List.prefix_rfl
  | case2 s t s' h rest ih => exact (next_grows h).trans ih

theorem drain_silent {s : Scanner} (h : s.drain.2.diagnostics = []) : s.diagnostics = [] := by
  have hp := drain_grows s
  rw [h] at hp
  exact List.prefix_nil.mp hp

theorem pipe_alone {afterWord : Bool} {cs : List Char}
    (h : (Lexeme.read afterWord [] '|' cs).1 = .ok .symbol) :
    (Lexeme.read afterWord [] '|' cs).2 = 0 := by
  have hread : Lexeme.read afterWord [] '|' cs = readPipes cs := by simp [Lexeme.read]
  rw [hread] at h ⊢
  unfold readPipes at h ⊢
  cases hc : closingPipes? cs with
  | none => rfl
  | some n => simp [hc] at h

theorem unclosed_kept {t : Token} (h : isStrayPipe t = false) (unclosed : List Nat)
    (rest : List Char) : Scanner.noteUnclosed unclosed t rest = unclosed :=
  if_neg fun hstray => by simp [isStrayPipe, hstray.1, hstray.2] at h

theorem reading_ok {t : Token} {r : Reading} (h : Lexeme.diagnostics t r = []) :
    ∃ k, r = .ok k := by
  cases r with
  | ok k => exact ⟨k, rfl⟩
  | error f => simp [Lexeme.diagnostics] at h

theorem next_lengthen {s s' : Scanner} {t : Token} (h : s.next? = some (t, s'))
    (hu : s.unclosed = []) (hd : s'.diagnostics = []) (ht : isStrayPipe t = false)
    (ys : List Char) :
    (lengthen ys s).next? = some (t, lengthen ys s') ∧ s'.unclosed = [] := by
  obtain ⟨rest, offset, afterWord, unclosed, ds⟩ := s
  obtain rfl : unclosed = [] := hu
  cases rest with
  | nil => simp [Scanner.next?] at h
  | cons c cs =>
    simp only [Scanner.next?, Option.some.injEq, Prod.mk.injEq] at h
    obtain ⟨rfl, rfl⟩ := h
    obtain ⟨k, hk⟩ := reading_ok (List.append_eq_nil_iff.mp hd).2
    have hpipe : c = '|' → k ≠ .symbol := by
      rintro rfl rfl
      have hzero := pipe_alone hk
      simp [isStrayPipe, hk, Lexeme.kind, hzero] at ht
    obtain ⟨hsame, hle⟩ := read_same hk hpipe ys
    refine ⟨?_, unclosed_kept ht [] cs⟩
    have htake := @List.take_append_of_le_length _ cs ('\n' :: ys) _ hle
    have hdrop := @List.drop_append_of_le_length _ cs ('\n' :: ys) _ hle
    simp only [lengthen, List.cons_append, Scanner.next?, hsame, htake, hdrop, unclosed_kept ht]

theorem drain_lengthen (s : Scanner) (hu : s.unclosed = []) (hd : s.drain.2.diagnostics = [])
    (ht : ∀ t ∈ s.drain.1, isStrayPipe t = false) (ys : List Char) :
    (lengthen ys s).drain =
        (s.drain.1 ++ (lengthen ys s.drain.2).drain.1, (lengthen ys s.drain.2).drain.2) ∧
      s.drain.2.unclosed = [] ∧ s.drain.2.rest = [] := by
  fun_induction Scanner.drain s with
  | case1 s h => exact ⟨rfl, hu, next_none.mp h⟩
  | case2 s t s' h rest ih =>
    obtain ⟨hnext, hu'⟩ := next_lengthen h hu (drain_silent hd) (ht t List.mem_cons_self) ys
    obtain ⟨hsame, hend⟩ := ih hu' hd fun u hmem => ht u (List.mem_cons_of_mem t hmem)
    refine ⟨?_, hend⟩
    rw [drain_next hnext, hsame]
    rfl

/-- The same scanner at an offset that is so many bytes further on. -/
def moved (n : Nat) (s : Scanner) : Scanner :=
  { s with
    offset := s.offset + n
    diagnostics := s.diagnostics.map (Relabelling.shift n).diagnostic }

theorem escapes_moved (n start : Nat) (cs : List Char) :
    Literal.unknownEscapes (start + n) cs =
      (Literal.unknownEscapes start cs).map fun e => (e.1 + n, e.2) := by
  fun_induction Literal.unknownEscapes start cs with
  | case1 start c cs rest hc ih =>
    rw [Literal.unknownEscapes, if_pos hc, ← ih]
    congr 1
    omega
  | case2 start c cs rest hc ih =>
    rw [Literal.unknownEscapes, if_neg hc, List.map_cons, ← ih]
    congr 2
    omega
  | case3 start c cs hne ih =>
    rw [Literal.unknownEscapes, ← ih]
    · congr 1
      omega
    · exact hne
  | case4 start => rfl

theorem faults_moved (n : Nat) (t : Token) (r : Reading) :
    Lexeme.diagnostics ((Relabelling.shift n).token t) r =
      (Lexeme.diagnostics t r).map (Relabelling.shift n).diagnostic := by
  cases r with
  | error f =>
    have hspan := (Relabelling.shift n).token_span t
    cases f <;> simp only [Lexeme.diagnostics, Fault.diagnostic, hspan] <;> rfl
  | ok k =>
    cases k with
    | string =>
      simp only [Lexeme.diagnostics, Relabelling.shift, escapes_moved, List.map_map]
      refine List.map_congr_left fun e _ => ?_
      have hstop : e.1 + n + 1 + e.2.utf8Size = e.1 + 1 + e.2.utf8Size + n := by omega
      simp only [Function.comp_apply, escapeDiagnostic, hstop]
      rfl
    | _ => rfl

theorem next_moved (n : Nat) (s : Scanner) :
    (moved n s).next? =
      s.next?.map fun step => ((Relabelling.shift n).token step.1, moved n step.2) := by
  obtain ⟨rest, offset, afterWord, unclosed, ds⟩ := s
  cases rest with
  | nil => rfl
  | cons c cs =>
    simp only [moved, Scanner.next?, Option.map_some, List.map_append, ← faults_moved]
    simp only [Relabelling.shift, Token.stop, Nat.add_right_comm]
    rfl

theorem drain_moved (n : Nat) (s : Scanner) :
    (moved n s).drain = (s.drain.1.map (Relabelling.shift n).token, moved n s.drain.2) := by
  fun_induction Scanner.drain s with
  | case1 s h =>
    have hnone : (moved n s).next? = none := by rw [next_moved, h]; rfl
    exact drain_end hnone
  | case2 s t s' h rest ih =>
    have hnext : (moved n s).next? = some ((Relabelling.shift n).token t, moved n s') := by
      rw [next_moved, h]
      rfl
    rw [drain_next hnext, ih]
    rfl

theorem drain_offset (s : Scanner) : s.drain.2.offset = s.offset + byteSize s.rest := by
  fun_induction Scanner.drain s with
  | case1 s h => simp [next_none.mp h]
  | case2 s t s' h rest ih =>
    obtain ⟨hstart, -, hoff, hrest⟩ := next_cuts h
    rw [ih, hoff, hrest, byteSize_append, Token.stop, hstart, Nat.add_assoc]

theorem newline_next {s : Scanner} {ys : List Char} (hr : s.rest = '\n' :: ys) :
    s.next? = some (⟨.newline, s.offset, ['\n']⟩,
      ⟨ys, s.offset + 1, false, s.unclosed, s.diagnostics⟩) := by
  have hread : Lexeme.read s.afterWord s.unclosed '\n' ys = (.ok .newline, 0) := by
    simp [Lexeme.read, readPlain, connector?]
  simp only [Scanner.next?, hr, hread]
  simp [Lexeme.kind, Scanner.noteUnclosed, Lexeme.diagnostics, Token.stop, byteSize]
  rfl

/-- Where the first text is clean, the tokens of two texts joined by a newline are those of the
first, the newline, and those of the second further on. -/
theorem tokenize_newline {before after : String} (hd : (tokenize before).2 = [])
    (ht : ∀ t ∈ (tokenize before).1, isStrayPipe t = false) :
    tokenize (before ++ "\n" ++ after) =
      ((tokenize before).1 ++ ⟨.newline, before.utf8ByteSize, ['\n']⟩ ::
          (tokenize after).1.map (Relabelling.shift (before.utf8ByteSize + 1)).token,
        (tokenize after).2.map (Relabelling.shift (before.utf8ByteSize + 1)).diagnostic) := by
  have hchars : (before ++ "\n" ++ after).toList = before.toList ++ '\n' :: after.toList := by
    simp
  have hlong : Scanner.ofText (before ++ "\n" ++ after) =
      lengthen after.toList (.ofText before) := by
    rw [Scanner.ofText, hchars]
    rfl
  obtain ⟨hsame, hunclosed, hrest⟩ := drain_lengthen (.ofText before) rfl hd ht after.toList
  have hoffset : (Scanner.ofText before).drain.2.offset = before.utf8ByteSize := by
    rw [drain_offset]
    simp [Scanner.ofText, byteSize_toList]
  have hnext : (lengthen after.toList (Scanner.ofText before).drain.2).next? =
      some (⟨.newline, before.utf8ByteSize, ['\n']⟩,
        moved (before.utf8ByteSize + 1) (.ofText after)) := by
    have hnewline := @newline_next (lengthen after.toList (Scanner.ofText before).drain.2)
      after.toList (by simp [lengthen, hrest])
    have hsilent : (Scanner.ofText before).drain.2.diagnostics = [] := hd
    rw [hnewline]
    simp only [lengthen, hoffset, hunclosed, hsilent]
    simp [moved, Scanner.ofText]
  simp only [tokenize, hlong, hsame, drain_next hnext, drain_moved]
  rfl

end DiagramText.Lines
