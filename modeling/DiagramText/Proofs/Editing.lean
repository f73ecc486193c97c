import DiagramText.Proofs.Nesting

/-!
# Edits of a row of tokens

An edit rewrites the tokens of a row one by one and may leave some of them out.
It fits a row when a token that stays keeps what the grammar looks at, up to
which of the two line breaks it is, and a token that is left out is trivia in
front of a line break or of the end. Every measure of the tokens ahead then
covers the same tokens before and after the edit.
-/

set_option autoImplicit false

namespace DiagramText

open Rule Lookahead Grammar Measures Braces Reading Nesting

/-- A newline or a semicolon, which end a statement alike. -/
def isBreak (k : TokenKind) : Bool := k == .newline || k == .semicolon

/-- Kinds that the grammar does not tell apart. -/
def Alike (k l : TokenKind) : Prop := l = k ∨ isBreak k = true ∧ isBreak l = true

theorem break_cases {k : TokenKind} (h : isBreak k = true) : k = .newline ∨ k = .semicolon := by
  simpa [isBreak] using h

theorem alike_test {k l : TokenKind} {p : TokenKind → Bool}
    (hp : p .newline = p .semicolon) (h : Alike k l) : p l = p k := by
  rcases h with rfl | ⟨hk, hl⟩
  · rfl
  · rcases break_cases hk with rfl | rfl <;> rcases break_cases hl with rfl | rfl <;> simp [hp]

theorem alike_iff {k l m : TokenKind} (hm : isBreak m = false) (h : Alike k l) :
    l = m ↔ k = m := by
  have htest := @alike_test k l (· == m) (by cases m <;> simp_all [isBreak]) h
  simpa using congrArg (· = true) htest

structure Edit where
  token : Token → Option Token
  offset : Nat → Nat

namespace Edit

variable (e : Edit)

def row (ts : List Token) : List Token := ts.filterMap e.token

def span (s : Span) : Span := ⟨e.offset s.start, e.offset s.stop⟩

def label (l : Label) : Label := { l with span := e.span l.span }

def diagnostic (d : Diagnostic) : Diagnostic := { d with labels := d.labels.map e.label }

mutual

/-- The edited tree, if it stays. Nodes always stay. -/
def tree : Tree → List Tree
  | .token t => (e.token t).toList.map .token
  | .node k s cs => [.node k (e.offset s) (trees cs)]

def trees : List Tree → List Tree
  | [] => []
  | c :: cs => tree c ++ trees cs

end

def cursor (c : Cursor) : Cursor := ⟨e.row c.tokens, e.offset c.stop⟩

def output (o : Output) : Output :=
  ⟨e.trees o.trees, o.diagnostics.map e.diagnostic, e.cursor o.cursor, o.stuck⟩

@[simp]
theorem trees_append (xs ys : List Tree) : e.trees (xs ++ ys) = e.trees xs ++ e.trees ys := by
  induction xs with
  | nil => rfl
  | cons x xs ih => simp [trees, ih]

@[simp]
theorem trees_tokens (ts : List Token) : e.trees (ts.map .token) = (e.row ts).map .token := by
  induction ts with
  | nil => rfl
  | cons t ts ih => cases ht : e.token t <;> simp [trees, tree, row, ht, ih]

@[simp]
theorem row_nil : e.row [] = [] := rfl

@[simp]
theorem row_append (ts us : List Token) : e.row (ts ++ us) = e.row ts ++ e.row us := by
  simp [row]

/-- What a token that stays keeps. -/
structure Keeps (t u : Token) : Prop where
  kind : Alike t.kind u.kind
  start : u.start = e.offset t.start
  stop : u.stop = e.offset t.stop
  comma : isComma u = isComma t
  reserved : t.kind = .identifier →
    Keyword.isReserved u.spelling = Keyword.isReserved t.spelling

/-- The row is over or goes on with a break. -/
def AtBreak : List Token → Prop
  | [] => True
  | t :: _ => isBreak t.kind = true

inductive Fits (stop : Nat) : List Token → Prop where
  | nil : Fits stop []
  | keep {t u : Token} {ts : List Token} (token : e.token t = some u) (keeps : e.Keeps t u)
      (rest : Fits stop ts) : Fits stop (t :: ts)
  | leave {t : Token} {ts : List Token} (token : e.token t = none) (trivia : t.isTrivia = true)
      (ends : AtBreak ts) (width : e.offset t.start = e.offset t.stop)
      (next : t.stop = Cursor.offset ⟨ts, stop⟩) (rest : Fits stop ts) : Fits stop (t :: ts)

abbrev Fit (c : Cursor) : Prop := e.Fits c.stop c.tokens

section

variable {e} {stop : Nat} {t u : Token} {ts : List Token}

theorem Keeps.test {p : TokenKind → Bool} (h : e.Keeps t u)
    (hp : p .newline = p .semicolon) : p u.kind = p t.kind :=
  alike_test hp h.kind

theorem Keeps.iff {k : TokenKind} (h : e.Keeps t u) (hk : isBreak k = false) :
    u.kind = k ↔ t.kind = k :=
  alike_iff hk h.kind

theorem Keeps.trivia (h : e.Keeps t u) : u.isTrivia = t.isTrivia :=
  h.test (p := TokenKind.isTrivia) rfl

theorem trivia_unbroken {k : TokenKind} (h : k.isTrivia = true) : isBreak k = false := by
  cases k <;> simp_all [TokenKind.isTrivia, isBreak]

theorem row_keep (h : e.token t = some u) (ts : List Token) : e.row (t :: ts) = u :: e.row ts := by
  simp [row, h]

theorem row_leave (h : e.token t = none) (ts : List Token) : e.row (t :: ts) = e.row ts := by
  simp [row, h]

theorem fits_drop (h : e.Fits stop ts) (n : Nat) : e.Fits stop (ts.drop n) := by
  induction h generalizing n with
  | nil => simpa using Fits.nil
  | keep token keeps rest ih =>
    cases n with
    | zero => exact .keep token keeps rest
    | succ n => exact ih n
  | leave token trivia ends width next rest ih =>
    cases n with
    | zero => exact .leave token trivia ends width next rest
    | succ n => exact ih n

/-- In front of a break or the end, the edited row is over or goes on with a break. -/
theorem ends_row (h : e.Fits stop ts) (he : AtBreak ts) : AtBreak (e.row ts) := by
  cases h with
  | nil => trivial
  | keep token keeps rest =>
    rw [row_keep token]
    exact (keeps.test (p := isBreak) rfl).trans he
  | leave token trivia =>
    have hb := trivia_unbroken trivia
    exact absurd he (by simp [AtBreak, hb])

theorem row_split (n : Nat) (ts : List Token) :
    e.row ts = e.row (ts.take n) ++ e.row (ts.drop n) := by
  rw [← row_append, List.take_append_drop]

theorem take_row {n m : Nat} (h : m = (e.row (ts.take n)).length) :
    (e.row ts).take m = e.row (ts.take n) := by
  rw [row_split n ts, h, List.take_left]

theorem drop_row {n m : Nat} (h : m = (e.row (ts.take n)).length) :
    (e.row ts).drop m = e.row (ts.drop n) := by
  rw [row_split n ts, h, List.drop_left]

theorem row_take_add (n m : Nat) (ts : List Token) :
    (e.row (ts.take (n + m))).length =
      (e.row (ts.take n)).length + (e.row ((ts.drop n).take m)).length := by
  rw [List.take_add, row_append, List.length_append]

theorem row_take_le (n : Nat) (ts : List Token) :
    (e.row (ts.take n)).length ≤ (e.row ts).length := by
  rw [row_split n ts, List.length_append]
  exact Nat.le_add_right _ _

theorem ends_takeWhile {p : Token → Bool} (breaks : ∀ t, isBreak t.kind = true → p t = false)
    (h : AtBreak ts) : ts.takeWhile p = [] := by
  cases ts with
  | nil => rfl
  | cons t ts => simp [breaks t h]

theorem takeWhile_row {p : Token → Bool} (same : ∀ {t u}, e.Keeps t u → p u = p t)
    (breaks : ∀ t, isBreak t.kind = true → p t = false) (h : e.Fits stop ts) :
    (e.row ts).takeWhile p = e.row (ts.takeWhile p) := by
  induction h with
  | nil => rfl
  | @keep t u ts token keeps rest ih =>
    rw [row_keep token, List.takeWhile_cons, List.takeWhile_cons, same keeps]
    by_cases hp : p t
    · rw [if_pos hp, if_pos hp, row_keep token, ih]
    · rw [if_neg hp, if_neg hp]
      rfl
  | @leave t ts token trivia ends width next rest ih =>
    rw [row_leave token, List.takeWhile_cons]
    by_cases hp : p t
    · rw [if_pos hp, row_leave token, ih]
    · -- a stopper that is left out stands in front of another one
      rw [if_neg hp]
      exact ends_takeWhile breaks (ends_row rest ends)

theorem trivia_cut (h : e.Fits stop ts) :
    triviaLength (e.row ts) = (e.row (ts.take (triviaLength ts))).length := by
  rw [take_trivia, triviaLength, takeWhile_row Keeps.trivia _ h]
  intro t ht
  cases hk : t.isTrivia with
  | false => rfl
  | true => simp [trivia_unbroken hk] at ht

theorem dropWhile_row {p : Token → Bool} {us : List Token}
    (keep : ∀ t ∈ us, ∀ u, e.token t = some u → p u = p t)
    (leave : ∀ t ∈ us, e.token t = none → p t = true) :
    (e.row us).dropWhile p = e.row (us.dropWhile p) := by
  induction us with
  | nil => rfl
  | cons t us ih =>
    have ih := ih (fun t ht => keep t (List.mem_cons_of_mem _ ht))
      (fun t ht => leave t (List.mem_cons_of_mem _ ht))
    cases ht : e.token t with
    | none => simp [row_leave ht, leave t List.mem_cons_self ht, ih]
    | some u =>
      rw [row_keep ht, List.dropWhile_cons, List.dropWhile_cons,
        keep t List.mem_cons_self u ht]
      by_cases hw : p t = true
      · rw [if_pos hw, if_pos hw, ih]
      · rw [if_neg hw, if_neg hw, row_keep ht]

theorem row_reverse (us : List Token) : e.row us.reverse = (e.row us).reverse := by
  simp [row, List.filterMap_reverse]

theorem fits_mem (h : e.Fits stop ts) : ∀ t ∈ ts,
    (∃ u, e.token t = some u ∧ e.Keeps t u) ∨ e.token t = none ∧ t.isTrivia = true := by
  induction h with
  | nil => simp
  | keep token keeps rest ih =>
    exact List.forall_mem_cons.mpr ⟨.inl ⟨_, token, keeps⟩, ih⟩
  | leave token trivia ends width next rest ih =>
    exact List.forall_mem_cons.mpr ⟨.inr ⟨token, trivia⟩, ih⟩

/-- A run of text is edited token by token, and the blanks at its end are still left out. -/
theorem run_cut {stops : Token → Bool} (same : ∀ {t u}, e.Keeps t u → stops u = stops t)
    (breaks : ∀ t, isBreak t.kind = true → stops t = true)
    (comments : ∀ t, t.isTrivia = true → stops t = false → t.kind = .whitespace)
    (h : e.Fits stop ts) :
    runLength stops (e.row ts) = (e.row (ts.take (runLength stops ts))).length := by
  have hrun : (e.row ts).takeWhile (!stops ·) = e.row (ts.takeWhile (!stops ·)) :=
    takeWhile_row (fun hk => congrArg (!·) (same hk)) (fun t ht => by simp [breaks t ht]) h
  have hmem (t : Token) (ht : t ∈ (ts.takeWhile (!stops ·)).reverse) :
      t ∈ ts ∧ stops t = false := by
    rw [List.mem_reverse] at ht
    exact ⟨(List.takeWhile_subset _) ht, by simpa using List.mem_takeWhile_imp ht⟩
  rw [run_take, runLength, hrun, row_reverse, List.length_reverse, ← row_reverse]
  refine congrArg List.length (dropWhile_row ?_ ?_)
  · intro t ht u hu
    rcases fits_mem h t (hmem t ht).1 with ⟨v, hv, hk⟩ | ⟨hn, -⟩
    · obtain rfl : v = u := by simpa [hv] using hu
      exact hk.test (p := (· == .whitespace)) rfl
    · simp [hn] at hu
  · intro t ht hn
    rcases fits_mem h t (hmem t ht).1 with ⟨v, hv, -⟩ | ⟨-, htrivia⟩
    · simp [hv] at hn
    · exact beq_iff_eq.mpr (comments t htrivia (hmem t ht).2)

theorem text_cut (h : e.Fits stop ts) :
    textLength (e.row ts) = (e.row (ts.take (textLength ts))).length := by
  refine run_cut (fun hk => ?_) (fun t ht => ?_) text_blanks h
  · exact hk.test (p := fun k => stopsText ⟨k, 0, []⟩) rfl
  · rcases break_cases ht with hk | hk <;> simp [stopsText, hk]

theorem separator_kept (h : e.Keeps t u) : isSeparator u = isSeparator t := by
  have hb : (u.kind == .semicolon || u.kind == .newline) =
      (t.kind == .semicolon || t.kind == .newline) :=
    h.test (p := fun k => k == .semicolon || k == .newline) rfl
  rw [isSeparator, h.comma, hb]
  rfl

/-- What stops an element is a separator, or a token of a kind that does. -/
theorem stops_kind (t : Token) :
    stopsElement t = (isSeparator t || stopsElement ⟨t.kind, 0, []⟩) := by
  simp only [stopsElement, isSeparator, isComma]
  cases t.kind <;> simp

theorem element_cut (h : e.Fits stop ts) :
    elementLength (e.row ts) = (e.row (ts.take (elementLength ts))).length := by
  refine run_cut (fun {t u} hk => ?_) (fun t ht => ?_) element_blanks h
  · rw [stops_kind t, stops_kind u, separator_kept hk]
    exact congrArg _ (hk.test (p := fun k => stopsElement ⟨k, 0, []⟩) rfl)
  · rcases break_cases ht with hk | hk <;> simp [stopsElement, isSeparator, hk]

theorem words_end {us : List Token} (h : AtBreak us) (a : Token) : moreWords (a :: us) = 0 := by
  cases us with
  | nil => rfl
  | cons b us =>
    rw [moreWords, if_neg]
    rintro ⟨-, hb⟩
    simp [AtBreak, hb, isBreak] at h

theorem words_over {us : List Token} (h : AtBreak us) : moreWords us = 0 := by
  cases us with
  | nil => rfl
  | cons b us =>
    apply words_none
    intro hb
    simp [AtBreak, hb, isBreak] at h

theorem words_cut (h : e.Fits stop ts) : moreWords (e.row ts) = moreWords ts ∧
    (e.row (ts.take (moreWords ts))).length = moreWords ts := by
  fun_induction moreWords ts with
  | case1 blank word ts hbw ih =>
    cases h with
    | leave _ _ ends => simp [AtBreak, hbw.2, isBreak] at ends
    | @keep _ b _ token keeps rest =>
      cases rest with
      | leave _ trivia => simp [Token.isTrivia, hbw.2, TokenKind.isTrivia] at trivia
      | @keep _ w _ token' keeps' rest =>
        have hb := (keeps.iff (k := .whitespace) rfl).mpr hbw.1
        have hw := (keeps'.iff (k := .identifier) rfl).mpr hbw.2
        obtain ⟨hsame, hlength⟩ := ih rest
        rw [row_keep token, row_keep token', moreWords, if_pos ⟨hb, hw⟩, hsame]
        simp only [List.take_succ_cons, row_keep token, row_keep token', List.length_cons, hlength,
          and_self]
  | case2 blank word ts hbw =>
    refine ⟨?_, rfl⟩
    cases h with
    | leave token _ ends _ _ rest =>
      rw [row_leave token]
      exact words_over (ends_row rest ends)
    | @keep _ b _ token keeps rest =>
      rw [row_keep token]
      cases rest with
      | leave token' _ ends _ _ rest =>
        rw [row_leave token']
        exact words_end (ends_row rest ends) b
      | @keep _ w _ token' keeps' rest =>
        rw [row_keep token', moreWords, if_neg]
        rintro ⟨hb, hw⟩
        exact hbw ⟨(keeps.iff rfl).mp hb, (keeps'.iff rfl).mp hw⟩
  | case3 ts hts =>
    refine ⟨?_, rfl⟩
    cases ts with
    | nil => rfl
    | cons t ts =>
      cases ts with
      | nil => cases ht : e.token t <;> simp [row, ht, moreWords]
      | cons u ts => exact absurd rfl (hts t u ts)

theorem segment_over {us : List Token} (h : AtBreak us) : segmentLength us = 0 := by
  cases us with
  | nil => rfl
  | cons b us => rcases break_cases h with hb | hb <;> simp [segmentLength, hb]

theorem segment_trivia (h : t.isTrivia = true) (ts : List Token) :
    segmentLength (t :: ts) = 0 := by
  cases hk : t.kind <;> simp_all [Token.isTrivia, TokenKind.isTrivia, segmentLength]

theorem segment_cut (h : e.Fits stop ts) : segmentLength (e.row ts) = segmentLength ts ∧
    (e.row (ts.take (segmentLength ts))).length = segmentLength ts := by
  cases h with
  | nil => exact ⟨rfl, rfl⟩
  | @keep t u ts token keeps rest =>
    obtain ⟨hsame, hlength⟩ := words_cut rest
    rw [row_keep token, segmentLength, segmentLength, hsame]
    by_cases hi : t.kind = .identifier
    · rw [if_pos hi, if_pos ((keeps.iff rfl).mpr hi), List.take_succ_cons, row_keep token]
      exact ⟨rfl, congrArg (· + 1) hlength⟩
    · rw [if_neg hi, if_neg fun hu => hi ((keeps.iff rfl).mp hu)]
      by_cases hs : t.kind = .string
      · rw [if_pos hs, if_pos ((keeps.iff rfl).mpr hs), List.take_succ_cons, row_keep token]
        exact ⟨rfl, rfl⟩
      · rw [if_neg hs, if_neg fun hu => hs ((keeps.iff rfl).mp hu)]
        exact ⟨rfl, rfl⟩
  | @leave t ts token trivia ends width next rest =>
    rw [segment_trivia trivia, row_leave token]
    exact ⟨segment_over (ends_row rest ends), rfl⟩

theorem keyword_kept (h : e.Fits stop ts) : isKeywordSegment (e.row ts) = isKeywordSegment ts := by
  rw [isKeywordSegment, isKeywordSegment, (segment_cut h).1]
  cases h with
  | nil => rfl
  | @keep t u ts token keeps rest =>
    have hk : (u.kind == .identifier) = (t.kind == .identifier) :=
      keeps.test (p := (· == .identifier)) rfl
    rw [row_keep token, List.head?_cons, List.head?_cons, Option.any_some, Option.any_some, hk]
    by_cases hi : t.kind = .identifier
    · rw [keeps.reserved hi]
    · rw [beq_eq_false_iff_ne.mpr hi]
      rfl
  | leave _ trivia => simp [segment_trivia trivia]

theorem head_starts (h : e.Fits stop ts) (hs : ts.head?.any (·.isTrivia) = false) :
    (e.row ts).head?.any (startsSegment ·.kind) = ts.head?.any (startsSegment ·.kind) := by
  cases h with
  | nil => rfl
  | keep token keeps =>
    rw [row_keep token]
    exact keeps.test (p := startsSegment) rfl
  | leave _ trivia => simp [trivia] at hs

theorem trivia_head (ts : List Token) :
    (ts.drop (triviaLength ts)).head?.any (·.isTrivia) = false := by
  rw [drop_trivia]
  induction ts with
  | nil => rfl
  | cons t ts ih => cases ht : t.isTrivia <;> simp [ht, ih]

theorem joint_cut (h : e.Fits stop ts) :
    jointLength? (e.row ts) = (jointLength? ts).map fun k => (e.row (ts.take k)).length := by
  have hbefore := trivia_cut h
  have hrest := fits_drop h (triviaLength ts)
  have hsettled := trivia_head ts
  simp only [jointLength?]
  rw [drop_row hbefore]
  cases hd : ts.drop (triviaLength ts) with
  | nil => rfl
  | cons dot rest =>
    rw [hd] at hrest hsettled
    cases hrest with
    | leave _ trivia => simp [trivia] at hsettled
    | @keep _ u _ token keeps fits =>
      have hafter := trivia_cut fits
      have hstarts := head_starts (fits_drop fits (triviaLength rest)) (trivia_head rest)
      rw [row_keep token]
      simp only [keeps.iff (k := .dot) rfl, drop_row hafter, hstarts]
      split
      · split
        · have hdrop : ts.drop (triviaLength ts + 1) = rest := by
            rw [← List.drop_drop, hd, List.drop_succ_cons, List.drop_zero]
          rw [Option.map_some, row_take_add, row_take_add, hdrop, hd, hbefore, hafter]
          simp [row_keep token]
        · rfl
      · rfl

theorem path_cut (h : e.Fits stop ts) :
    path (e.row ts) = ⟨(e.row (ts.take (path ts).length)).length, (path ts).hasKeyword⟩ := by
  fun_induction path ts with
  | case1 ts n hn hj =>
    obtain ⟨hsame, hlength⟩ := segment_cut h
    have hjoint := joint_cut (fits_drop h n)
    rw [path]
    simp only [hsame, keyword_kept h]
    rw [dif_pos hn, drop_row hlength.symm, hjoint, hj, hlength]
    rfl
  | case2 ts n hn k hj rest ih =>
    obtain ⟨hsame, hlength⟩ := segment_cut h
    have hjoint := joint_cut (fits_drop h n)
    have htake := @row_take_add e n k ts
    rw [hlength] at htake
    rw [path]
    simp only [hsame, keyword_kept h]
    rw [dif_pos hn, drop_row hlength.symm, hjoint, hj]
    simp only [Option.map_some]
    rw [drop_row htake.symm, ih (fits_drop h _), row_take_add (n + k), htake]
  | case3 ts n hn =>
    rw [path]
    simp only [(segment_cut h).1]
    rw [dif_neg hn]
    rfl

theorem count_keep {x y : Option Nat} (token : e.token t = some u)
    (h : y = x.map fun n => (e.row (ts.take n)).length) :
    y.map (· + 1) = (x.map (· + 1)).map fun n => (e.row ((t :: ts).take n)).length := by
  rw [h, Option.map_map, Option.map_map]
  congr 1
  funext n
  simp [row_keep token]

theorem count_leave {x y : Option Nat} (token : e.token t = none)
    (h : y = x.map fun n => (e.row (ts.take n)).length) :
    y = (x.map (· + 1)).map fun n => (e.row ((t :: ts).take n)).length := by
  rw [h, Option.map_map]
  congr 1
  funext n
  simp [row_leave token]

theorem group_cut {o c : TokenKind} (ho : isBreak o = false) (hc : isBreak c = false)
    (hto : o.isTrivia = false) (htc : c.isTrivia = false) (h : e.Fits stop ts) (depth : Nat) :
    groupLength? o c depth (e.row ts) =
      (groupLength? o c depth ts).map fun n => (e.row (ts.take n)).length := by
  induction h generalizing depth with
  | nil => rfl
  | @keep t u ts token keeps rest ih =>
    have hstep (d : Nat) := count_keep token (ih d)
    rw [row_keep token]
    cases depth with
    | zero =>
      simp only [groupLength?, keeps.iff ho, keeps.iff hc]
      split
      · exact hstep 1
      · split
        · rfl
        · exact hstep 0
    | succ depth =>
      cases depth with
      | zero =>
        simp only [groupLength?, keeps.iff ho, keeps.iff hc]
        split
        · exact hstep 2
        · split
          · simp [row_keep token]
          · exact hstep 1
      | succ depth =>
        simp only [groupLength?, keeps.iff ho, keeps.iff hc]
        split
        · exact hstep (depth + 3)
        · split
          · exact hstep (depth + 1)
          · exact hstep (depth + 2)
  | @leave t ts token trivia ends width next rest ih =>
    have hno : t.kind ≠ o := by
      rintro rfl
      simp [Token.isTrivia, hto] at trivia
    have hnc : t.kind ≠ c := by
      rintro rfl
      simp [Token.isTrivia, htc] at trivia
    have hstep : groupLength? o c depth (t :: ts) = (groupLength? o c depth ts).map (· + 1) := by
      cases depth with
      | zero => simp only [groupLength?, if_neg hno, if_neg hnc]
      | succ depth => cases depth <;> simp only [groupLength?, if_neg hno, if_neg hnc]
    rw [row_leave token, hstep]
    exact count_leave token (ih depth)

theorem statement_cut (h : e.Fits stop ts) (depth : Nat) :
    statementLength? depth (e.row ts) =
      (statementLength? depth ts).map fun n => (e.row (ts.take n)).length := by
  induction h generalizing depth with
  | nil => rfl
  | @keep t u ts token keeps rest ih =>
    have hstep (d : Nat) := count_keep token (ih d)
    have hend : isTerminator u.kind = isTerminator t.kind := keeps.test rfl
    rw [row_keep token]
    cases depth with
    | zero =>
      simp only [statementLength?, hend, keeps.iff (k := .leftBrace) rfl,
        keeps.iff (k := .rightBrace) rfl]
      split
      · rfl
      · split
        · rfl
        · split
          · exact hstep 1
          · exact hstep 0
    | succ depth =>
      simp only [statementLength?, hend, keeps.iff (k := .leftBrace) rfl,
        keeps.iff (k := .rightBrace) rfl]
      split
      · rfl
      · split
        · exact hstep depth
        · split
          · exact hstep (depth + 2)
          · exact hstep (depth + 1)
  | @leave t ts token trivia ends width next rest ih =>
    have hplain : isTerminator t.kind = false ∧ t.kind ≠ .rightBrace ∧ t.kind ≠ .leftBrace := by
      cases hk : t.kind <;> simp_all [Token.isTrivia, TokenKind.isTrivia, isTerminator]
    obtain ⟨hterm, hright, hleft⟩ := hplain
    have hstep : statementLength? depth (t :: ts) = (statementLength? depth ts).map (· + 1) := by
      cases depth <;> simp [statementLength?, hterm, hright, hleft]
    rw [row_leave token, hstep]
    exact count_leave token (ih depth)

end

end Edit

end DiagramText
