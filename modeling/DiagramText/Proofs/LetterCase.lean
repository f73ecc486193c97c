import DiagramText.Parse
import DiagramText.Proofs.Trimming

/-!
# Letter case

Neither the scanner nor the grammar tells an ASCII letter from the same letter
in upper case. The scanner tests characters one by one, and each of its tests
answers alike for the two; the grammar compares words with the reserved ones
after folding them. So raising the letters of a text changes what is written
in its tokens and nothing else.
-/

set_option autoImplicit false

namespace DiagramText.LetterCase
open Text Lexeme Scanning Layout Lines Trimming

def Caseless {α : Type} (p : Char → α) : Prop :=
  ∀ n : Fin 26, p (.ofNat (65 + n)) = p (.ofNat (97 + n))

instance {α : Type} [DecidableEq α] (p : Char → α) : Decidable (Caseless p) :=
  inferInstanceAs (Decidable (∀ n : Fin 26, p (.ofNat (65 + n)) = p (.ofNat (97 + n))))

theorem upper_letter (n : Fin 26) : (Char.ofNat (97 + n)).toUpper = .ofNat (65 + n) := by
  revert n
  decide

theorem upper_test {α : Type} {p : Char → α} (hp : Caseless p) (c : Char) :
    p c.toUpper = p c := by
  by_cases hc : 'a'.val ≤ c.val ∧ c.val ≤ 'z'.val
  · have hlow : 97 ≤ c.toNat := hc.1
    have hhigh : c.toNat ≤ 122 := hc.2
    have hletter : c = .ofNat (97 + (⟨c.toNat - 97, by omega⟩ : Fin 26)) := by
      have hsum : 97 + (c.toNat - 97) = c.toNat := by omega
      simp only [hsum, Char.ofNat_toNat]
    rw [hletter, upper_letter]
    exact hp _
  · have hsame : c.toUpper = c := dif_neg hc
    rw [hsame]

theorem upper_iff {d : Char} (hd : Caseless (· == d)) (c : Char) : c.toUpper = d ↔ c = d := by
  have htest := upper_test hd c
  rw [← beq_iff_eq, htest, beq_iff_eq]

theorem upper_width (c : Char) : c.toUpper.utf8Size = c.utf8Size := upper_test (by decide) c

theorem upper_folded (c : Char) : c.toUpper.toLower = c.toLower := upper_test (by decide) c

theorem lower_raised (c : Char) : c.toLower.toUpper = c.toUpper := by
  by_cases hc : 'A'.val ≤ c.val ∧ c.val ≤ 'Z'.val
  · have hlow : 65 ≤ c.toNat := hc.1
    have hhigh : c.toNat ≤ 90 := hc.2
    have hletter : c = .ofNat (65 + (⟨c.toNat - 65, by omega⟩ : Fin 26)) := by
      have hsum : 65 + (c.toNat - 65) = c.toNat := by omega
      simp only [hsum, Char.ofNat_toNat]
    have hall : ∀ n : Fin 26,
        (Char.ofNat (65 + n)).toLower.toUpper = (Char.ofNat (65 + n)).toUpper := by
      decide
    rw [hletter]
    exact hall _
  · have hsame : c.toLower = c := dif_neg hc
    rw [hsame]

def uppercase (cs : List Char) : List Char := cs.map Char.toUpper

theorem width_raised (cs : List Char) : byteSize (uppercase cs) = byteSize cs := by
  induction cs with
  | nil => rfl
  | cons c cs ih =>
    rw [byteSize_cons, ← ih, ← upper_width]
    rfl

theorem run_raised {p : Char → Bool} (hp : Caseless p) (cs : List Char) :
    (uppercase cs).takeWhile p = uppercase (cs.takeWhile p) := by
  have hsame : p ∘ Char.toUpper = p := funext (upper_test hp)
  rw [uppercase, List.takeWhile_map, hsame]
  rfl

theorem raised_single {d : Char} (hd : Caseless (· == d)) (cs : List Char) :
    uppercase cs = [d] ↔ cs = [d] := by
  cases cs with
  | nil => exact Iff.rfl
  | cons c cs => simp [uppercase, upper_iff hd]

theorem pattern_caseless {pattern : List Char}
    (h : pattern.all (fun d => decide (Caseless (d == ·))) = true) :
    ∀ d ∈ pattern, Caseless (d == ·) :=
  fun d hd => of_decide_eq_true (List.all_eq_true.mp h d hd)

theorem prefix_raised (pattern : List Char) (hp : ∀ d ∈ pattern, Caseless (d == ·))
    (cs : List Char) : pattern.isPrefixOf (uppercase cs) = pattern.isPrefixOf cs := by
  induction pattern generalizing cs with
  | nil => rfl
  | cons d pattern ih =>
    cases cs with
    | nil => rfl
    | cons c cs =>
      obtain ⟨hd, hp⟩ := List.forall_mem_cons.mp hp
      show (d == c.toUpper && pattern.isPrefixOf (uppercase cs)) = _
      rw [upper_test hd, ih hp]
      rfl

theorem index_raised {pattern : List Char} (hp : ∀ d ∈ pattern, Caseless (d == ·))
    (cs : List Char) : indexOf? pattern (uppercase cs) = indexOf? pattern cs := by
  induction cs with
  | nil => rfl
  | cons c cs ih =>
    have hpre : pattern.isPrefixOf (c.toUpper :: uppercase cs) = pattern.isPrefixOf (c :: cs) :=
      prefix_raised pattern hp (c :: cs)
    show indexOf? pattern (c.toUpper :: uppercase cs) = _
    rw [indexOf?, indexOf?, hpre, ih]

theorem drop_raised (n : Nat) (cs : List Char) : (uppercase cs).drop n = uppercase (cs.drop n) := by
  rw [uppercase, uppercase, List.map_drop]

theorem take_raised (n : Nat) (cs : List Char) : (uppercase cs).take n = uppercase (cs.take n) := by
  rw [uppercase, uppercase, List.map_take]

theorem quote_raised {q : Char} (hq : Caseless (· == q)) (hb : q ≠ '\\') (cs : List Char) :
    closingQuote? q (uppercase cs) = closingQuote? q cs := by
  have hnewline := upper_iff (d := '\n') (by decide)
  have hbackslash := upper_iff (d := '\\') (by decide)
  fun_induction closingQuote? q cs with
  | case1 cs =>
    show closingQuote? q ('\\' :: '\n' :: uppercase cs) = _
    rw [closingQuote?, if_pos rfl]
  | case2 c cs hc ih =>
    show closingQuote? q ('\\' :: c.toUpper :: uppercase cs) = _
    rw [closingQuote?, if_neg fun h => hc ((hnewline c).mp h), ih]
  | case3 cs hne =>
    show closingQuote? q (q.toUpper :: uppercase cs) = _
    rw [(upper_iff hq q).mpr rfl, quote_step hb, if_pos rfl]
  | case4 c cs hne hcq hn =>
    show closingQuote? q (c.toUpper :: uppercase cs) = _
    rcases hn with rfl | rfl
    · rw [(hnewline _).mpr rfl, quote_step (by decide), if_neg hcq, if_pos rfl]
    · cases cs with
      | nil => simp [uppercase, closingQuote?, (hbackslash '\\').mpr rfl, hcq]
      | cons d ds => exact absurd rfl (hne d ds rfl)
  | case5 c cs hne hcq hn ih =>
    rw [not_or] at hn
    show closingQuote? q (c.toUpper :: uppercase cs) = _
    rw [quote_step fun h => hn.2 ((hbackslash c).mp h), if_neg fun h => hcq ((upper_iff hq c).mp h),
      if_neg fun h => hn.1 ((hnewline c).mp h), ih]
  | case6 => rfl

theorem line_raised (cs : List Char) : lineLength (uppercase cs) = lineLength cs := by
  rw [lineLength, run_raised (by decide), uppercase, List.length_map]
  rfl

theorem string_raised {q : Char} (hq : Caseless (· == q)) (hb : q ≠ '\\') (cs : List Char) :
    readString q (uppercase cs) = readString q cs := by
  rw [readString, quote_raised hq hb, line_raised]
  rfl

theorem comment_raised (cs : List Char) : readComment (uppercase cs) = readComment cs := by
  have hlength : (uppercase cs).length = cs.length := List.length_map _
  rw [readComment, drop_raised, index_raised (pattern_caseless (by decide)), hlength]
  rfl

theorem pipe_run_raised (cs : List Char) :
    Literal.pipeRun ('|' :: uppercase cs) = Literal.pipeRun ('|' :: cs) := by
  have hrun := run_raised (p := (· == '|')) (by decide) ('|' :: cs)
  have hlength := congrArg List.length hrun
  rw [uppercase, uppercase, List.length_map] at hlength
  exact congrArg (min 3) hlength

theorem pipes_raised (cs : List Char) : readPipes (uppercase cs) = readPipes cs := by
  have hpipes (n : Nat) : ∀ d ∈ List.replicate n '|', Caseless (d == ·) := by
    intro d hd
    rw [List.eq_of_mem_replicate hd]
    decide
  simp only [readPipes, closingPipes?, pipe_run_raised, drop_raised, index_raised (hpipes _)]

theorem word_raised (cs : List Char) : wordLength (uppercase cs) = wordLength cs := by
  have hword := upper_test (p := isWordChar) (by decide)
  have hhyphen := upper_iff (d := '-') (by decide)
  fun_induction wordLength cs with
  | case1 c cs hc ih =>
    show wordLength ('-' :: c.toUpper :: uppercase cs) = _
    rw [wordLength, hword, if_pos hc, ih]
  | case2 c cs hc =>
    show wordLength ('-' :: c.toUpper :: uppercase cs) = _
    rw [wordLength, hword, if_neg hc]
  | case3 c cs hne hc ih =>
    have hplain : c ≠ '-' := by
      rintro rfl
      exact absurd hc (by decide)
    show wordLength (c.toUpper :: uppercase cs) = _
    rw [word_step fun h => hplain ((hhyphen c).mp h), hword, if_pos hc, ih]
  | case4 c cs hne hc =>
    show wordLength (c.toUpper :: uppercase cs) = _
    by_cases hplain : c = '-'
    · subst hplain
      cases cs with
      | nil => rfl
      | cons d ds => exact absurd rfl (hne d ds rfl)
    · rw [word_step fun h => hplain ((hhyphen c).mp h), hword, if_neg hc]
  | case5 => rfl

theorem connector_raised (c : Char) (cs : List Char) :
    connector? c.toUpper (uppercase cs) = connector? c cs := by
  have hless := upper_iff (d := '<') (by decide) c
  have hhyphen := upper_iff (d := '-') (by decide) c
  simp only [connector?, hless, hhyphen,
    prefix_raised ['-', '>'] (pattern_caseless (by decide)),
    prefix_raised ['-'] (pattern_caseless (by decide)),
    prefix_raised ['>'] (pattern_caseless (by decide))]

theorem plain_raised (c : Char) (cs : List Char) :
    readPlain c.toUpper (uppercase cs) = readPlain c cs := by
  have hnewline := upper_iff (d := '\n') (by decide) c
  have hhash := upper_iff (d := '#') (by decide) c
  have hblank := upper_test (p := isBlank) (by decide) c
  have hword := upper_test (p := isWordChar) (by decide) c
  have hpunctuation := upper_test (p := punctuation?) (by decide) c
  have hcontrol := upper_test (p := isControl) (by decide) c
  have hspaces : ((uppercase cs).takeWhile isSpace).length = (cs.takeWhile isSpace).length := by
    rw [run_raised (by decide), uppercase, List.length_map]
  simp only [readPlain, connector_raised, hnewline, hhash, hblank, hword, hpunctuation, hcontrol,
    hspaces, line_raised, word_raised]

theorem read_raised (afterWord : Bool) (unclosed : List Nat) (c : Char) (cs : List Char) :
    Lexeme.read afterWord unclosed c.toUpper (uppercase cs) =
      Lexeme.read afterWord unclosed c cs := by
  have hquote := upper_iff (d := '"') (by decide) c
  have hsingle := upper_iff (d := '\'') (by decide) c
  have hpipe := upper_iff (d := '|') (by decide) c
  simp only [Lexeme.read, hquote, hsingle, hpipe, comment_raised, pipes_raised, plain_raised,
    prefix_raised ['"', '"'] (pattern_caseless (by decide))]
  split
  · next hc =>
    rw [hquote.mpr hc, hc, string_raised (by decide) (by decide)]
  split
  · next hc =>
    rw [hsingle.mpr hc, hc, string_raised (by decide) (by decide)]
  split
  · next hc => rw [hpipe.mpr hc, hc, pipe_run_raised]
  · rfl

theorem folded_raised {v w : String} (h : foldCase v = foldCase w) :
    uppercase v.toList = uppercase w.toList := by
  have hraise (s : String) : uppercase s.toList = (foldCase s).map Char.toUpper := by
    rw [foldCase, List.map_map, uppercase]
    exact List.map_congr_left fun c _ => (lower_raised c).symm
  rw [hraise, hraise, h]

theorem listed_raised (words : List String) (cs : List Char) :
    listed words (String.ofList (uppercase cs)) = listed words (String.ofList cs) := by
  have hfold : foldCase (String.ofList (uppercase cs)) = foldCase (String.ofList cs) := by
    simp only [foldCase, String.toList_ofList, uppercase, List.map_map]
    exact List.map_congr_left fun c _ => upper_folded c
  simp only [listed, sameFolded, hfold]

/-- Raising the letters of every token. -/
def upperCase : Relabelling where
  token t := { t with text := uppercase t.text }
  offset o := o
  kind _ := rfl
  start _ := rfl
  stop t := congrArg (t.start + ·) (width_raised t.text)
  comma t := by
    have htext := raised_single (d := ',') (by decide) t.text
    simp only [Lookahead.isComma, Bool.beq_eq_decide_eq, htext]
  reserved t := listed_raised _ t.text

/-- The same scanner over a raised text, whatever it has reported. -/
structure Raised (s s' : Scanner) : Prop where
  rest : s'.rest = uppercase s.rest
  offset : s'.offset = s.offset
  afterWord : s'.afterWord = s.afterWord
  unclosed : s'.unclosed = s.unclosed

theorem note_raised (unclosed : List Nat) (t : Token) (cs : List Char) :
    Scanner.noteUnclosed unclosed (upperCase.token t) (uppercase cs) =
      Scanner.noteUnclosed unclosed t cs := by
  have htext := raised_single (d := '|') (by decide) t.text
  simp only [Scanner.noteUnclosed, upperCase, htext, pipe_run_raised]

theorem next_raised {s s' u : Scanner} {t : Token} (h : Raised s s')
    (hnext : s.next? = some (t, u)) :
    ∃ u', s'.next? = some (upperCase.token t, u') ∧ Raised u u' := by
  obtain ⟨rest, offset, afterWord, unclosed, ds⟩ := s
  obtain ⟨rest', offset', afterWord', unclosed', ds'⟩ := s'
  obtain ⟨hr, ho, ha, hu⟩ := h
  obtain rfl : rest' = uppercase rest := hr
  obtain rfl : offset' = offset := ho
  obtain rfl : afterWord' = afterWord := ha
  obtain rfl : unclosed' = unclosed := hu
  cases rest with
  | nil => simp [Scanner.next?] at hnext
  | cons c cs =>
    simp only [Scanner.next?, Option.some.injEq, Prod.mk.injEq] at hnext
    obtain ⟨rfl, rfl⟩ := hnext
    have htoken := note_raised unclosed' ⟨kind (Lexeme.read afterWord' unclosed' c cs).1, offset',
      c :: cs.take (Lexeme.read afterWord' unclosed' c cs).2⟩ cs
    simp only [uppercase, List.map_cons, Scanner.next?]
    rw [← uppercase, read_raised, take_raised, drop_raised]
    refine ⟨_, rfl, rfl, ?_, rfl, htoken⟩
    exact upperCase.stop ⟨kind (Lexeme.read afterWord' unclosed' c cs).1, offset',
      c :: cs.take (Lexeme.read afterWord' unclosed' c cs).2⟩

theorem drain_raised {s s' : Scanner} (h : Raised s s') :
    s'.drain.1 = s.drain.1.map upperCase.token := by
  rw [← upperCase.edit_row]
  refine (drain_edited (R := Raised) ?_ ?_ s s' h).1
  · intro s s' h hnone
    rw [next_none, h.rest, next_none.mp hnone]
    rfl
  · intro s s' t u h hnext
    obtain ⟨u', hnext', h'⟩ := next_raised h hnext
    exact .inr ⟨_, u', rfl, hnext', h'⟩

/-- The text with its ASCII letters in upper case. -/
def upper (text : String) : String := text.map Char.toUpper

theorem upper_chars (text : String) : (upper text).toList = uppercase text.toList :=
  String.toList_map

theorem upper_size (text : String) : (upper text).utf8ByteSize = text.utf8ByteSize := by
  rw [← byteSize_toList, upper_chars, width_raised, byteSize_toList]

theorem tokenize_upper (text : String) :
    (tokenize (upper text)).1 = (tokenize text).1.map upperCase.token :=
  drain_raised ⟨upper_chars text, rfl, rfl, rfl⟩

/-- Tokens of one kind at one place. -/
def Recased (t u : Token) : Prop := u.kind = t.kind ∧ u.span = t.span

theorem trees_upper (xs : List Tree) : Matched Recased xs (upperCase.trees xs) := by
  induction xs using forest_induction with
  | nil => exact .nil
  | token t xs ih => exact .token ⟨rfl, upperCase.token_span t⟩ ih
  | node k s cs xs ihc ih => exact .node ihc ih

/-- A diagnostic of the grammar. -/
def isSyntax (d : Diagnostic) : Bool := d.code.any (·.phase == .parse)

theorem lexical_not_syntax {ds : List Diagnostic} (h : ∀ d ∈ ds, Lexical d) :
    ds.filter isSyntax = [] := by
  apply List.filter_eq_nil_iff.mpr
  intro d hd
  obtain ⟨k, hk, hphase⟩ := h d hd
  simp [isSyntax, hk, hphase]

theorem diagnostic_upper (d : Diagnostic) : upperCase.diagnostic d = d := by
  obtain ⟨severity, code, message, labels, help⟩ := d
  have hlabels : labels.map upperCase.label = labels := List.map_id labels
  exact congrArg (Diagnostic.mk severity code message · help) hlabels

theorem parse_tokens_upper (size : Nat) (ts : List Token) :
    (parseTokens size (ts.map upperCase.token)).tree =
        upperCase.tree (parseTokens size ts).tree ∧
      (parseTokens size (ts.map upperCase.token)).diagnostics =
        (parseTokens size ts).diagnostics := by
  have hcommutes : Grammar.document ⟨ts.map upperCase.token, size⟩ =
      upperCase.output (Grammar.document ⟨ts, size⟩) :=
    Relabelling.document_commutes ⟨ts, size⟩
  simp only [parseTokens, hcommutes]
  refine ⟨rfl, ?_⟩
  show List.map upperCase.diagnostic _ = _
  rw [funext diagnostic_upper, List.map_id']

/-- Raising the ASCII letters of a text leaves the kinds and spans of its tokens, the nodes of
its tree and the diagnostics of the grammar as they are. -/
theorem parse_upper (text : String) :
    (tokenize (upper text)).1.map (fun t => (t.kind, t.span)) =
        (tokenize text).1.map (fun t => (t.kind, t.span)) ∧
      (parse (upper text)).tree = upperCase.tree (parse text).tree ∧
      Matched Recased [(parse text).tree] [(parse (upper text)).tree] ∧
      nodeSpans [(parse (upper text)).tree] = nodeSpans [(parse text).tree] ∧
      (parse (upper text)).diagnostics.filter isSyntax =
        (parse text).diagnostics.filter isSyntax := by
  have htokens := tokenize_upper text
  obtain ⟨htree, hdiagnostics⟩ := parse_tokens_upper text.utf8ByteSize (tokenize text).1
  have hparsed : (parse (upper text)).tree = upperCase.tree (parse text).tree := by
    simp only [parse, upper_size, htokens, htree]
  have hmatched : Matched Recased [(parse text).tree] [(parse (upper text)).tree] := by
    rw [hparsed]
    exact trees_upper [(parse text).tree]
  refine ⟨?_, hparsed, hmatched, ?_, ?_⟩
  · rw [htokens, List.map_map]
    exact List.map_congr_left fun t _ => congrArg (t.kind, ·) (upperCase.token_span t)
  · exact matched_spans (fun t u h => congrArg Span.stop h.2) hmatched
  · simp only [parse, upper_size, htokens, hdiagnostics, List.filter_append,
      lexical_not_syntax (tokenize_lexical _)]

end DiagramText.LetterCase
