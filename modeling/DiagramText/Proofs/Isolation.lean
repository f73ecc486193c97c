import DiagramText.Proofs.BareWords
import DiagramText.Proofs.BlockLiterals
import DiagramText.Proofs.Escapes

/-!
# Tokens by themselves

What the scanner reads at a place depends on the text behind it and on the
token in front of it, but neither changes what a token is: the text of a token,
scanned alone, is that token again with the same reports. Only an apostrophe is
a token because of the word in front of it. As words and runs of blanks take
all that they can, no two of them stand side by side.
-/

set_option autoImplicit false

namespace DiagramText.Isolation
open Text Lexeme Scanning Lines Pipes BlockLiterals BareWords Escapes
open Literal (pipeRun)

def isApostrophe (t : Token) : Bool := t.kind == .symbol && t.text == ['\'']

/-- The text of the token is scanned to this token alone, and what is reported inside the token is
reported there, from the start of the text on. -/
structure Alone (text : String) (t : Token) : Prop where
  tokens : (tokenize t.spelling).1 = [⟨t.kind, 0, t.text⟩]
  reports : (tokenize text).2.filter (isWithin t.span) =
    (tokenize t.spelling).2.map (Relabelling.shift t.start).diagnostic

/-- Not both words, and not both blanks. -/
def Unmerged (t u : Token) : Prop := t.kind = u.kind → t.kind ≠ .identifier ∧ t.kind ≠ .whitespace

structure Isolated (text : String) : Prop where
  alone : ∀ t ∈ (tokenize text).1, isApostrophe t = false → Alone text t
  apart : (tokenize text).1.IsChain Unmerged

theorem takeWhile_take (p : Char → Bool) (cs : List Char) :
    (cs.take (cs.takeWhile p).length).takeWhile p = cs.takeWhile p := by
  rw [← List.prefix_iff_eq_take.mp (List.takeWhile_prefix p), List.takeWhile_eq_self_iff]
  exact fun c hc => List.mem_takeWhile_imp hc

theorem line_again (cs : List Char) : lineLength (cs.take (lineLength cs)) = lineLength cs := by
  rw [lineLength, lineLength, takeWhile_take]

theorem word_take (cs : List Char) : wordLength (cs.take (wordLength cs)) = wordLength cs := by
  fun_induction wordLength cs with
  | case1 c cs hc ih => simp [wordLength, hc, ih]
  | case2 c cs hc => rfl
  | case3 c cs hne hc ih =>
    have hhyphen : c ≠ '-' := by
      rintro rfl
      exact absurd hc (by decide)
    rw [List.take_succ_cons, word_step hhyphen, if_pos hc, ih]
  | case4 c cs hne hc => rfl
  | case5 => rfl

theorem quote_open {q : Char} {cs : List Char} (hq : q ≠ '\\') (h : closingQuote? q cs = none)
    (n : Nat) : closingQuote? q (cs.take n) = none := by
  cases hc : closingQuote? q (cs.take n) with
  | none => rfl
  | some m =>
    have hlong := (quote_stays hq hc (cs.drop n)).1
    rw [List.take_append_drop, h] at hlong
    simp at hlong

theorem pipes_take {cs : List Char} {n : Nat} (h : closingPipes? cs = some n) :
    closingPipes? (cs.take n) = some n := by
  obtain ⟨m, hclosed, hfirst, hlength⟩ := closing_some_iff.mp h
  have htake : ('|' :: cs).take (pipeRun ('|' :: cs) + m + pipeRun ('|' :: cs)) =
      '|' :: cs.take n := by
    rw [← hlength, List.take_succ_cons]
  have hrun : pipeRun ('|' :: cs.take n) = pipeRun ('|' :: cs) := by
    obtain ⟨body, hbody⟩ := closed_delimited (pipeRun_pos cs) hclosed hfirst
    rw [htake] at hbody
    exact hbody.run_eq
  refine closing_some_iff.mpr ⟨m, ?_, fun k hk hagain => hfirst k hk ?_, by rwa [hrun]⟩
  · have hstands := List.prefix_iff_eq_take.mp hclosed
    rw [delimiter, List.length_replicate] at hstands
    rw [ClosedAt, delimiter, hrun, ← htake, List.drop_take, Nat.add_sub_cancel_left, ← hstands]
  · rw [ClosedAt, delimiter, hrun, ← htake] at hagain
    exact hagain.trans ((List.take_prefix _ _).drop _)

theorem connector_take {c : Char} {cs : List Char} {k : TokenKind} {n : Nat}
    (h : connector? c cs = some (k, n)) : connector? c (cs.take n) = some (k, n) := by
  unfold connector? at h ⊢
  match cs with
  | [] => simp at h
  | [a] => grind [List.isPrefixOf]
  | a :: b :: cs => grind [List.isPrefixOf]

theorem prefix_longer {pattern cs : List Char} {n : Nat}
    (h : pattern.isPrefixOf (cs.take n) = true) : pattern.isPrefixOf cs = true := by
  rw [List.isPrefixOf_iff_prefix] at h ⊢
  exact h.trans (List.take_prefix n cs)

theorem connector_none {c : Char} {cs : List Char} (h : connector? c cs = none) (n : Nat) :
    connector? c (cs.take n) = none := by
  unfold connector? at h ⊢
  grind [prefix_longer]

theorem plain_take (c : Char) (cs : List Char) :
    readPlain c (cs.take (readPlain c cs).2) = readPlain c cs := by
  unfold readPlain
  cases hc : connector? c cs with
  | some kn => simp only [connector_take hc]
  | none =>
    simp only [connector_none hc]
    by_cases hnewline : c = '\n'
    · simp only [if_pos hnewline]
    by_cases hblank : isBlank c = true
    · simp only [if_neg hnewline, if_pos hblank, takeWhile_take]
    by_cases hhash : c = '#'
    · simp only [if_neg hnewline, if_neg hblank, if_pos hhash, line_again]
    by_cases hword : isWordChar c = true
    · simp only [if_neg hnewline, if_neg hblank, if_neg hhash, if_pos hword, word_take]
    · simp only [if_neg hnewline, if_neg hblank, if_neg hhash, if_neg hword]

theorem string_take {q : Char} (hq : q ≠ '\\') (cs : List Char) :
    readString q (cs.take (readString q cs).2) = readString q cs := by
  unfold readString
  cases hc : closingQuote? q cs with
  | some n => simp only [quote_take hq hc]
  | none => simp only [quote_open hq hc, line_again]

theorem comment_take {cs : List Char} (h : ['"', '"'].isPrefixOf cs = true) :
    ['"', '"'].isPrefixOf (cs.take (readComment cs).2) = true ∧
      readComment (cs.take (readComment cs).2) = readComment cs := by
  unfold readComment
  cases hc : indexOf? ['"', '"', '"'] (cs.drop 2) with
  | some n =>
    have hdrop : (cs.take (n + 5)).drop 2 = (cs.drop 2).take (n + 3) := List.drop_take
    have hagain : indexOf? ['"', '"', '"'] ((cs.drop 2).take (n + 3)) = some n := indexOf?_take hc
    simp only [hdrop, hagain, and_true]
    rw [List.isPrefixOf_iff_prefix] at h ⊢
    exact List.prefix_take_iff.mpr ⟨h, by simp⟩
  | none => simp only [List.take_length, hc, h, and_self]

theorem pipes_read_take (cs : List Char) :
    readPipes (cs.take (readPipes cs).2) = readPipes cs := by
  unfold readPipes
  cases hc : closingPipes? cs with
  | some n => simp only [pipes_take hc]
  | none =>
    have hnone : closingPipes? [] = none := by decide
    simp only [List.take_zero, hnone]

theorem read_take {afterWord : Bool} {c : Char} (h : c = '\'' → afterWord = false)
    (unclosed : List Nat) (cs : List Char) :
    Lexeme.read false [] c (cs.take (Lexeme.read afterWord unclosed c cs).2) =
      Lexeme.read afterWord unclosed c cs := by
  unfold Lexeme.read
  by_cases hquote : c = '"'
  · simp only [if_pos hquote]
    by_cases hopens : ['"', '"'].isPrefixOf cs = true
    · obtain ⟨hagain, hsame⟩ := comment_take hopens
      rw [if_pos hopens, if_pos hagain, hsame]
    · rw [if_neg hopens, if_neg fun hagain => hopens (prefix_longer hagain)]
      exact string_take (by simp [hquote]) cs
  by_cases hsingle : c = '\''
  · simp only [if_neg hquote, if_pos hsingle, h hsingle]
    exact string_take (by simp [hsingle]) cs
  by_cases hpipe : c = '|'
  · have hopen : readPipes [] = (.ok .symbol, 0) := by decide
    simp only [if_neg hquote, if_neg hsingle, if_pos hpipe, List.contains_nil, Bool.false_eq_true,
      if_false]
    split
    · exact hopen
    · exact pipes_read_take cs
  simp only [if_neg hquote, if_neg hsingle, if_neg hpipe]
  exact plain_take c cs

theorem tokenize_whole {c : Char} {cs : List Char} {r : Reading} {n : Nat}
    (h : Lexeme.read false [] c cs = (r, n)) (hn : cs.length ≤ n) :
    tokenize (.ofList (c :: cs)) =
      ([⟨Lexeme.kind r, 0, c :: cs⟩], Lexeme.diagnostics ⟨Lexeme.kind r, 0, c :: cs⟩ r) := by
  obtain ⟨s, hs, hrest, hds⟩ : ∃ s, (Scanner.ofText (.ofList (c :: cs))).next? =
      some (⟨Lexeme.kind r, 0, c :: cs⟩, s) ∧ s.rest = [] ∧
      s.diagnostics = Lexeme.diagnostics ⟨Lexeme.kind r, 0, c :: cs⟩ r := by
    simp only [Scanner.ofText, String.toList_ofList, Scanner.next?, h, List.take_of_length_le hn,
      List.drop_of_length_le hn]
    exact ⟨_, rfl, rfl, rfl⟩
  simp only [tokenize, drain_next hs, drain_end (next_none.mpr hrest), hds]

theorem next_alone {s u : Scanner} {t : Token} (h : s.next? = some (t, u))
    (ht : isApostrophe t = false) :
    (tokenize t.spelling).1 = [⟨t.kind, 0, t.text⟩] ∧
      u.diagnostics = s.diagnostics ++
        (tokenize t.spelling).2.map (Relabelling.shift t.start).diagnostic := by
  obtain ⟨c, cs, hr, rfl, rfl⟩ := next_cons h
  have hquote : c = '\'' → s.afterWord = false := by
    rintro rfl
    cases hword : s.afterWord with
    | false => rfl
    | true => simp [isApostrophe, Lexeme.read, hword, Lexeme.kind] at ht
  have hread := read_take hquote s.unclosed cs
  generalize Lexeme.read s.afterWord s.unclosed c cs = lexeme at hread
  have hwhole := tokenize_whole hread (List.length_take_le _ _)
  have hmoved := faults_moved s.offset ⟨Lexeme.kind lexeme.1, 0, c :: cs.take lexeme.2⟩ lexeme.1
  rw [Token.spelling, hwhole, ← hmoved]
  simp [Relabelling.shift]

/-- What is reported about a token. -/
def own (t : Token) : List Diagnostic :=
  if isApostrophe t then []
  else (tokenize t.spelling).2.map (Relabelling.shift t.start).diagnostic

theorem next_own {s u : Scanner} {t : Token} (h : s.next? = some (t, u)) :
    u.diagnostics = s.diagnostics ++ own t := by
  cases ht : isApostrophe t with
  | false =>
    rw [own, ht]
    exact (next_alone h ht).2
  | true =>
    obtain ⟨r, hr, hds⟩ := next_reports h
    have hsymbol : t.kind = .symbol := by
      simp only [isApostrophe, Bool.and_eq_true, beq_iff_eq] at ht
      exact ht.1
    obtain rfl := read_kind hr hsymbol (by simp)
    rw [hds, own, ht]
    rfl

theorem drain_own (s : Scanner) :
    s.drain.2.diagnostics = s.diagnostics ++ s.drain.1.flatMap own := by
  fun_induction Scanner.drain s with
  | case1 s h => simp
  | case2 s t u h rest ih => rw [ih, next_own h, List.append_assoc, List.flatMap_cons]

theorem tokenize_own (text : String) : (tokenize text).2 = (tokenize text).1.flatMap own :=
  drain_own (.ofText text)

theorem token_own {text : String} {t : Token} (ht : t ∈ (tokenize text).1) :
    ∃ r, own t = Lexeme.diagnostics t r := by
  obtain ⟨before, after, hsplit⟩ := List.append_of_mem ht
  obtain ⟨v, u, -, hnext, -⟩ :=
    drain_reaches (I := fun _ => True) (fun _ _ _ _ _ => trivial) (.ofText text) trivial hsplit
  obtain ⟨r, -, hds⟩ := next_reports hnext
  exact ⟨r, List.append_cancel_left ((next_own hnext).symm.trans hds)⟩

theorem escape_bounds {start : Nat} {cs : List Char} {e : Nat × Char}
    (h : e ∈ Literal.unknownEscapes start cs) :
    start ≤ e.1 ∧ e.1 + 1 + e.2.utf8Size ≤ start + byteSize cs := by
  have hslash : '\\'.utf8Size = 1 := rfl
  fun_induction Literal.unknownEscapes start cs with
  | case1 start c cs rest hc ih =>
    obtain ⟨hlo, hhi⟩ := ih h
    simp only [byteSize_cons, hslash]
    omega
  | case2 start c cs rest hc ih =>
    simp only [byteSize_cons, hslash]
    rcases List.mem_cons.mp h with rfl | h
    · simp only
      omega
    · obtain ⟨hlo, hhi⟩ := ih h
      omega
  | case3 start c cs hne ih =>
    obtain ⟨hlo, hhi⟩ := ih h
    rw [byteSize_cons]
    omega
  | case4 => simp at h

theorem within_span {d : Diagnostic} {s : Span} (h : d.span? = some s) (w : Span) :
    isWithin w d = true ↔ w.start ≤ s.start ∧ s.stop ≤ w.stop := by
  simp [isWithin, h]

theorem lexeme_inside {t : Token} (ht : t.text ≠ []) {r : Reading} {d : Diagnostic}
    (h : d ∈ Lexeme.diagnostics t r) : LiesIn isWithin t d := by
  unfold Lexeme.diagnostics at h
  split at h
  · next f =>
    obtain rfl : d = f.diagnostic t := by simpa using h
    exact ⟨t.span, Nat.le_refl _, token_width ht, Nat.le_refl _, within_span rfl⟩
  · obtain ⟨e, he, rfl⟩ := List.mem_map.mp h
    obtain ⟨hlo, hhi⟩ := escape_bounds he
    refine ⟨⟨e.1, e.1 + 1 + e.2.utf8Size⟩, hlo, ?_, hhi, within_span rfl⟩
    simp only
    omega
  · simp at h

theorem reports_own {text : String} {t : Token} (ht : t ∈ (tokenize text).1) :
    (tokenize text).2.filter (isWithin t.span) = own t := by
  have htiled := (tokenize_covers text).1
  have hinside : ∀ u ∈ (tokenize text).1, ∀ d ∈ own u, LiesIn isWithin u d := by
    intro u hu d hd
    obtain ⟨r, hr⟩ := token_own hu
    exact lexeme_inside (tiled_filled htiled u hu) (hr ▸ hd)
  obtain ⟨before, after, hsplit⟩ := List.append_of_mem ht
  rw [tokenize_own]
  rw [hsplit] at htiled hinside ⊢
  exact tiled_row htiled hinside

theorem word_stops (cs : List Char) :
    ∀ d ∈ (cs.drop (wordLength cs)).head?, isWordChar d = false := by
  have hhyphen : isWordChar '-' = false := by decide
  fun_induction wordLength cs with
  | case1 c cs hc ih => simpa using ih
  | case2 c cs hc => simp [hhyphen]
  | case3 c cs hne hc ih => simpa using ih
  | case4 c cs hne hc => simpa using hc
  | case5 => simp

theorem space_stops (cs : List Char) :
    ∀ d ∈ (cs.drop (cs.takeWhile isSpace).length).head?, isSpace d = false := by
  intro d hd
  rw [drop_run, Option.mem_def] at hd
  simpa [hd] using List.head?_dropWhile_not isSpace cs

theorem next_apart {s u v : Scanner} {t t' : Token} (h : s.next? = some (t, u))
    (h' : u.next? = some (t', v)) : Unmerged t t' := by
  obtain ⟨c, cs, -, rfl, hu⟩ := next_cons h
  obtain ⟨d, ds, hr, rfl, -⟩ := next_cons h'
  have hrest : u.rest = cs.drop (Lexeme.read s.afterWord s.unclosed c cs).2 :=
    congrArg Scanner.rest hu
  have hd : d ∈ (cs.drop (Lexeme.read s.afterWord s.unclosed c cs).2).head? := by
    simp [← hrest, hr]
  have hfirst := read_greedy s.afterWord s.unclosed c cs
  have hsecond := read_greedy u.afterWord u.unclosed d ds
  intro hsame
  constructor
  · intro hword
    obtain ⟨-, -, hlength⟩ := hfirst.word hword
    obtain ⟨hstarts, -⟩ := hsecond.word (hsame.symm.trans hword)
    rw [hlength] at hd
    simp [word_stops cs d hd] at hstarts
  · intro hspace
    obtain ⟨-, hlength⟩ := hfirst.space hspace
    obtain ⟨hstarts, -⟩ := hsecond.space (hsame.symm.trans hspace)
    rw [hlength] at hd
    simp [space_stops cs d hd] at hstarts

theorem drain_apart (s : Scanner) : s.drain.1.IsChain Unmerged := by
  fun_induction Scanner.drain s with
  | case1 s h => exact .nil
  | case2 s t u h rest ih =>
    refine List.isChain_cons.mpr ⟨fun t' ht' => ?_, ih⟩
    cases hnext : u.next? with
    | none => simp [rest, drain_end hnext] at ht'
    | some step =>
      obtain ⟨w, v⟩ := step
      obtain rfl : w = t' := by simpa [rest, drain_next hnext] using ht'
      exact next_apart h hnext

/-- The tokens of a text are what their own texts are scanned to. -/
theorem tokenize_isolated (text : String) : Isolated text := by
  refine ⟨fun t ht hplain => ?_, drain_apart (.ofText text)⟩
  obtain ⟨before, after, hsplit⟩ := List.append_of_mem ht
  obtain ⟨v, u, -, hnext, -⟩ :=
    drain_reaches (I := fun _ => True) (fun _ _ _ _ _ => trivial) (.ofText text) trivial hsplit
  refine ⟨(next_alone hnext hplain).1, ?_⟩
  rw [reports_own ht, own, hplain]
  rfl

end DiagramText.Isolation
