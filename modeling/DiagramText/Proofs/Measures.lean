import DiagramText.Grammar.Document
import Mathlib.Data.List.TakeWhile

/-!
# What lookahead measures

Every measure of the tokens ahead stays within them, and it is positive where
the grammar relies on it. The tokens of a path and of a text run hold no
brace, and those of an array element no closing brace. The counters that
balance braces and brackets have a value wherever the grammar asks for one.
-/

set_option autoImplicit false

namespace DiagramText.Measures
open Rule Lookahead

def isBrace (k : TokenKind) : Bool := k == .leftBrace || k == .rightBrace

theorem takeWhile_stops {α : Type} {p : α → Bool} {x : α} (h : p x = false) (xs ys : List α) :
    (xs ++ x :: ys).takeWhile p = xs.takeWhile p := by
  induction xs with
  | nil => simp [h]
  | cons y xs ih => rw [List.cons_append, List.takeWhile_cons, List.takeWhile_cons, ih]

theorem trivia_le (ts : List Token) : triviaLength ts ≤ ts.length :=
  (List.takeWhile_prefix _).length_le

theorem drop_trivia (ts : List Token) :
    ts.drop (triviaLength ts) = ts.dropWhile (·.isTrivia) := by
  induction ts with
  | nil => rfl
  | cons t ts ih =>
    by_cases h : t.isTrivia
    · simpa [triviaLength, h] using ih
    · simp [triviaLength, h]

theorem take_trivia (ts : List Token) :
    ts.take (triviaLength ts) = ts.takeWhile (·.isTrivia) :=
  (List.prefix_iff_eq_take.mp (List.takeWhile_prefix _)).symm

theorem trivia_tokens (ts : List Token) :
    ∀ t ∈ ts.take (triviaLength ts), t.isTrivia = true := by
  intro t ht
  rw [take_trivia] at ht
  exact List.mem_takeWhile_imp ht

/-- Past the trivia stands the token that was peeked at. -/
theorem trivia_current (c : Cursor) : (trivia c).cursor.current? = c.peek? := by
  have hd : c.tokens.find? (!·.isTrivia) = (c.tokens.dropWhile (·.isTrivia)).head? := by
    simpa using List.find?_eq_head?_dropWhile_not (!·.isTrivia) c.tokens
  simp only [trivia, take, Cursor.drop, Cursor.current?, Cursor.peek?, drop_trivia, hd]

theorem peek_current (c : Cursor) (k : TokenKind) (h : c.current? = some k)
    (hk : k.isTrivia = false) : c.peek? = some k := by
  obtain ⟨ts, size⟩ := c
  cases ts with
  | nil => simp [Cursor.current?] at h
  | cons t ts =>
    have ht : t.kind = k := by simpa [Cursor.current?] using h
    subst ht
    simp [Cursor.peek?, Token.isTrivia, hk]

theorem run_le_takeWhile (stops : Token → Bool) (ts : List Token) :
    runLength stops ts ≤ (ts.takeWhile (!stops ·)).length := by
  have h := (List.dropWhile_suffix (·.kind == .whitespace)
    (l := (ts.takeWhile (!stops ·)).reverse)).length_le
  simpa [runLength] using h

theorem run_le (stops : Token → Bool) (ts : List Token) : runLength stops ts ≤ ts.length :=
  (run_le_takeWhile stops ts).trans (List.takeWhile_prefix _).length_le

theorem run_tokens (stops : Token → Bool) (ts : List Token) :
    ∀ t ∈ ts.take (runLength stops ts), stops t = false := by
  intro t ht
  have hp : ts.take (runLength stops ts) <+: ts.takeWhile (!stops ·) :=
    List.prefix_of_prefix_length_le (List.take_prefix _ _) (List.takeWhile_prefix _)
      ((List.length_take_le _ _).trans (run_le_takeWhile stops ts))
  simpa using List.mem_takeWhile_imp (hp.subset ht)

theorem run_pos (stops : Token → Bool) (t : Token) (ts : List Token)
    (hs : stops t = false) (hw : t.kind ≠ .whitespace) : 0 < runLength stops (t :: ts) := by
  rw [runLength, List.length_pos_iff, ne_eq, List.dropWhile_eq_nil_iff]
  intro h
  exact hw (by simpa using h t (by simp [hs]))

theorem run_take (stops : Token → Bool) (ts : List Token) :
    ts.take (runLength stops ts) =
      ((ts.takeWhile (!stops ·)).reverse.dropWhile (·.kind == .whitespace)).reverse := by
  have hp : ((ts.takeWhile (!stops ·)).reverse.dropWhile (·.kind == .whitespace)).reverse <+:
      ts := by
    refine List.IsPrefix.trans ?_ (List.takeWhile_prefix (!stops ·))
    rw [← List.reverse_suffix, List.reverse_reverse]
    exact List.dropWhile_suffix _
  rw [List.prefix_iff_eq_take.mp hp, List.length_reverse]
  rfl

theorem run_last (stops : Token → Bool) (ts : List Token) :
    ∀ t ∈ (ts.take (runLength stops ts)).getLast?, t.kind ≠ .whitespace := by
  intro t ht hk
  rw [run_take, List.getLast?_reverse] at ht
  have hnot := List.head?_dropWhile_not (·.kind == .whitespace)
    (ts.takeWhile (!stops ·)).reverse
  rw [Option.mem_def.mp ht] at hnot
  simp [hk] at hnot

theorem text_tokens (ts : List Token) :
    ∀ t ∈ ts.take (textLength ts), isBrace t.kind = false := by
  intro t ht
  have hs := run_tokens stopsText ts t ht
  cases hk : t.kind <;> simp_all [isBrace, stopsText]

/-- Comments stop a text, blanks do not. -/
theorem text_blanks (t : Token) (ht : t.isTrivia = true) (hs : stopsText t = false) :
    t.kind = .whitespace := by
  cases hk : t.kind <;> simp_all [Token.isTrivia, TokenKind.isTrivia, stopsText]

theorem element_blanks (t : Token) (ht : t.isTrivia = true) (hs : stopsElement t = false) :
    t.kind = .whitespace := by
  cases hk : t.kind <;>
    simp_all [Token.isTrivia, TokenKind.isTrivia, stopsElement, isSeparator]

theorem text_pos (t : Token) (ts : List Token) (h : startsText t.kind = true) :
    0 < textLength (t :: ts) := by
  apply run_pos
  · cases hk : t.kind <;> simp_all [startsText, stopsText, isTerminator, TokenKind.isTrivia]
  · rintro hk
    simp [hk, startsText, TokenKind.isTrivia] at h

theorem element_tokens (ts : List Token) :
    ∀ t ∈ ts.take (elementLength ts), t.kind ≠ .rightBrace := by
  intro t ht hk
  have hs := run_tokens stopsElement ts t ht
  simp [stopsElement, hk] at hs

/-- An element has a token wherever the array goes on with no trivia, separator or bracket. -/
theorem element_pos (t : Token) (ts : List Token) (hs : isSeparator t = false)
    (ht : t.isTrivia = false) (hl : t.kind ≠ .leftBracket) (hr : t.kind ≠ .rightBracket)
    (hb : t.kind ≠ .rightBrace) : 0 < elementLength (t :: ts) := by
  apply run_pos
  · rw [stopsElement, hs]
    cases hk : t.kind <;> simp_all [Token.isTrivia, TokenKind.isTrivia]
  · intro hk
    simp [Token.isTrivia, hk, TokenKind.isTrivia] at ht

theorem words_none {a : Token} (h : a.kind ≠ .whitespace) (us : List Token) :
    moreWords (a :: us) = 0 := by
  cases us with
  | nil => rfl
  | cons b us => rw [moreWords, if_neg fun hab => h hab.1]

theorem words_bound (ts : List Token) :
    moreWords ts ≤ ts.length ∧ ∀ t ∈ ts.take (moreWords ts), isBrace t.kind = false := by
  fun_induction moreWords ts with
  | case1 blank word ts h ih =>
    obtain ⟨hb, hw⟩ := h
    refine ⟨by simp only [List.length_cons]; omega, ?_⟩
    intro t ht
    simp only [List.take_succ_cons, List.mem_cons] at ht
    rcases ht with rfl | rfl | ht
    · simp [hb, isBrace]
    · simp [hw, isBrace]
    · exact ih.2 t ht
  | case2 => simp
  | case3 => simp

theorem segment_bound (ts : List Token) :
    segmentLength ts ≤ ts.length ∧
      ∀ t ∈ ts.take (segmentLength ts), isBrace t.kind = false := by
  cases ts with
  | nil => simp [segmentLength]
  | cons t ts =>
    have hw := words_bound ts
    by_cases hi : t.kind = .identifier
    · refine ⟨by simpa [segmentLength, hi] using hw.1, ?_⟩
      simpa [segmentLength, hi, isBrace] using hw.2
    · by_cases hs : t.kind = .string
      · simp [segmentLength, hs, isBrace]
      · simp [segmentLength, hi, hs]

theorem segment_pos (t : Token) (ts : List Token) (h : startsSegment t.kind = true) :
    0 < segmentLength (t :: ts) := by
  simp only [startsSegment, Bool.or_eq_true, beq_iff_eq] at h
  rcases h with h | h <;> simp [segmentLength, h]

/-- A joint is a dot with trivia around it, and a segment starts behind it. -/
theorem joint_parts {ts : List Token} {k : Nat} (h : jointLength? ts = some k) :
    k ≤ ts.length ∧ (ts.drop k).head?.any (startsSegment ·.kind) = true ∧
      ∃ before dot after, ts.take k = before ++ dot :: after ∧ dot.kind = .dot ∧
        (∀ t ∈ before, t.isTrivia = true) ∧ ∀ t ∈ after, t.isTrivia = true := by
  simp only [jointLength?] at h
  split at h
  · simp at h
  · next dot rest hd =>
    split at h
    · next hk =>
      split at h
      · next hstarts =>
        obtain rfl : triviaLength ts + 1 + triviaLength rest = k := by simpa using h
        have hl := congrArg List.length hd
        have hr := trivia_le rest
        simp only [List.length_drop, List.length_cons] at hl
        have hrest : ts.drop (triviaLength ts + 1) = rest := by
          rw [← List.drop_drop, hd, List.drop_succ_cons, List.drop_zero]
        refine ⟨by omega, ?_, ts.take (triviaLength ts), dot, rest.take (triviaLength rest), ?_,
          hk, trivia_tokens ts, trivia_tokens rest⟩
        · rw [← List.drop_drop, hrest]
          exact hstarts
        · rw [List.take_add, List.take_add, hd, hrest]
          simp
      · simp at h
    · simp at h

theorem joint_bound (ts : List Token) (k : Nat) (h : jointLength? ts = some k) :
    k ≤ ts.length ∧ ∀ t ∈ ts.take k, isBrace t.kind = false := by
  have plain {t : Token} (ht : t.isTrivia = true) : isBrace t.kind = false := by
    cases hk : t.kind <;> simp_all [Token.isTrivia, TokenKind.isTrivia, isBrace]
  obtain ⟨hle, -, before, dot, after, htake, hdot, hbefore, hafter⟩ := joint_parts h
  refine ⟨hle, ?_⟩
  intro t ht
  rw [htake, List.mem_append, List.mem_cons] at ht
  rcases ht with ht | rfl | ht
  · exact plain (hbefore t ht)
  · simp [hdot, isBrace]
  · exact plain (hafter t ht)

theorem path_bound (ts : List Token) :
    pathLength ts ≤ ts.length ∧ ∀ t ∈ ts.take (pathLength ts), isBrace t.kind = false := by
  unfold pathLength
  fun_induction path ts with
  | case1 ts n hn hj =>
    exact segment_bound ts
  | case2 ts n hn k hj rest ih =>
    have hs := segment_bound ts
    have hk := joint_bound _ k hj
    simp only [List.length_drop] at hk ih
    have hn : n = segmentLength ts := rfl
    refine ⟨by simp only [rest]; omega, ?_⟩
    intro t ht
    rw [List.take_add, List.take_add] at ht
    simp only [List.mem_append] at ht
    rcases ht with (ht | ht) | ht
    · exact hs.2 t ht
    · exact hk.2 t ht
    · exact ih.2 t ht
  | case3 ts n hn => simp

theorem path_pos (t : Token) (ts : List Token) (h : startsSegment t.kind = true) :
    0 < pathLength (t :: ts) := by
  have hs := segment_pos t ts h
  unfold pathLength
  rw [path]
  simp only [hs, ↓reduceDIte]
  split
  · exact hs
  · simp only
    omega

end DiagramText.Measures
