import DiagramText.Proofs.Editing

/-!
# The grammar on edited rows

Where an edit fits the tokens ahead, a rule reads the edited tokens into the
edited trees, with the edited diagnostics, whatever it recovers from. Rules
that skip trivia first do so at every cursor, the others at a token that is not
trivia, which is where the grammar uses them. Every diagnostic is placed at a
token that stays or at a bare offset, so its labels move with the document.
-/

set_option autoImplicit false

namespace DiagramText

open Rule Lookahead Grammar Measures Braces Reading Nesting

namespace Edit

variable (e : Edit)

/-- The first output is the edited second, which takes a number of tokens at the cursor. -/
structure Mirrors (c : Cursor) (o' o : Output) : Prop where
  same : o' = e.output o
  drops : ∃ n, o.cursor = c.drop n

/-- On the edited tokens the first rule does what the second does on the tokens themselves. -/
abbrev Follows (p q : Rule) (c : Cursor) : Prop := e.Mirrors c (p (e.cursor c)) (q c)

/-- The rule and the edit commute at every cursor that the edit fits. -/
def Anywhere (p : Rule) : Prop := ∀ c, e.Fit c → e.Follows p p c

/-- The rule and the edit commute where no trivia is ahead. -/
def AtToken (p : Rule) : Prop := ∀ c, e.Fit c → Settled c → e.Follows p p c

variable {e} {c : Cursor}

theorem fit_drop (h : e.Fit c) (n : Nat) : e.Fit (c.drop n) := fits_drop h n

theorem cursor_drop {n m : Nat} (h : m = (e.row (c.tokens.take n)).length) :
    (e.cursor c).drop m = e.cursor (c.drop n) := by
  rw [Cursor.drop, cursor, drop_row h]
  rfl

theorem cursor_offset (h : e.Fit c) : (e.cursor c).offset = e.offset c.offset := by
  obtain ⟨ts, stop⟩ := c
  have h : e.Fits stop ts := h
  induction h with
  | nil => rfl
  | keep token keeps rest =>
    rw [cursor, row_keep token]
    exact keeps.start
  | @leave t ts token trivia ends width next rest ih =>
    have hoffset : e.offset t.start = e.offset (Cursor.offset ⟨ts, stop⟩) := by rw [width, next]
    rw [cursor, row_leave token]
    exact (ih rest).trans hoffset.symm

theorem settled_kept {t : Token} {ts : List Token} {stop : Nat} (h : e.Fits stop (t :: ts))
    (hs : t.isTrivia = false) :
    ∃ u, e.token t = some u ∧ e.Keeps t u ∧ e.Fits stop ts := by
  cases h with
  | keep token keeps rest => exact ⟨_, token, keeps, rest⟩
  | leave token trivia => simp [hs] at trivia

theorem cursor_span (h : e.Fit c) (hs : Settled c) : (e.cursor c).span = e.span c.span := by
  obtain ⟨ts, stop⟩ := c
  cases ts with
  | nil => rfl
  | cons t ts =>
    obtain ⟨u, token, keeps, -⟩ := settled_kept h (hs t.kind rfl)
    show Cursor.span ⟨e.row (t :: ts), _⟩ = _
    rw [row_keep token]
    simp only [Cursor.span, Token.span, span, keeps.start, keeps.stop]

/-- The same kind, or two breaks. -/
def AlikeNext (a b : Option TokenKind) : Prop :=
  b = a ∨ ∃ k l, a = some k ∧ b = some l ∧ isBreak k = true ∧ isBreak l = true

theorem alikeNext_any {a b : Option TokenKind} {p : TokenKind → Bool} (h : AlikeNext a b)
    (hp : p .newline = p .semicolon) : b.any p = a.any p := by
  rcases h with rfl | ⟨k, l, rfl, rfl, hk, hl⟩
  · rfl
  · exact alike_test hp (.inr ⟨hk, hl⟩)

theorem alikeNext_iff {a b : Option TokenKind} {k : TokenKind} (h : AlikeNext a b)
    (hk : isBreak k = false) : b = some k ↔ a = some k := by
  rcases h with rfl | ⟨l, m, rfl, rfl, hl, hm⟩
  · exact Iff.rfl
  · constructor
    · intro h
      obtain rfl : m = k := Option.some.inj h
      simp [hk] at hm
    · intro h
      obtain rfl : l = k := Option.some.inj h
      simp [hk] at hl

theorem current_alike (h : e.Fit c) (hs : Settled c) :
    AlikeNext c.current? (e.cursor c).current? := by
  obtain ⟨ts, stop⟩ := c
  cases ts with
  | nil => exact .inl rfl
  | cons t ts =>
    obtain ⟨u, token, keeps, -⟩ := settled_kept h (hs t.kind rfl)
    have hu : (e.cursor ⟨t :: ts, stop⟩).current? = some u.kind := by
      rw [cursor, row_keep token]
      rfl
    rcases keeps.kind with hk | ⟨ht, hl⟩
    · exact .inl (hu.trans (congrArg some hk))
    · exact .inr ⟨t.kind, u.kind, rfl, hu, ht, hl⟩

theorem separator_head (h : e.Fit c) (hs : Settled c) :
    (e.cursor c).tokens.head?.any isSeparator = c.tokens.head?.any isSeparator := by
  obtain ⟨ts, stop⟩ := c
  cases ts with
  | nil => rfl
  | cons t ts =>
    obtain ⟨u, token, keeps, -⟩ := settled_kept h (hs t.kind rfl)
    show (e.row (t :: ts)).head?.any isSeparator = _
    rw [row_keep token]
    exact separator_kept keeps

theorem cursor_trivia (h : e.Fit c) : (trivia (e.cursor c)).cursor = e.cursor (trivia c).cursor :=
  cursor_drop (trivia_cut h)

theorem peek_alike (h : e.Fit c) : AlikeNext c.peek? (e.cursor c).peek? := by
  rw [← trivia_current, ← trivia_current, cursor_trivia h]
  exact current_alike (fit_drop h _) (trivia_settled c)

theorem Mirrors.fit {o' o : Output} (h : e.Mirrors c o' o) (hc : e.Fit c) : e.Fit o.cursor := by
  obtain ⟨n, hn⟩ := h.drops
  rw [hn]
  exact fit_drop hc n

theorem skip_follows (c : Cursor) : e.Follows skip skip c := ⟨rfl, 0, rfl⟩

theorem halt_follows (c : Cursor) : e.Follows halt halt c := ⟨rfl, 0, rfl⟩

theorem take_follows {length : List Token → Nat}
    (hcut : length (e.row c.tokens) = (e.row (c.tokens.take (length c.tokens))).length)
    (hle : length c.tokens ≤ c.tokens.length) : e.Follows (take length) (take length) c := by
  refine ⟨?_, _, rfl⟩
  have hle' : length (e.row c.tokens) ≤ (e.row c.tokens).length := hcut ▸ row_take_le _ _
  have htokens : (e.cursor c).tokens = e.row c.tokens := rfl
  simp only [take, output, htokens, take_row hcut, cursor_drop hcut, trees_tokens, List.map_nil]
  rw [decide_eq_false (Nat.not_lt.mpr hle), decide_eq_false (Nat.not_lt.mpr hle')]

theorem counted_follows {length? : List Token → Option Nat}
    (hcut : length? (e.row c.tokens) =
      (length? c.tokens).map fun n => (e.row (c.tokens.take n)).length)
    (hle : ∀ n, length? c.tokens = some n → n ≤ c.tokens.length) :
    e.Follows (takeCounted length?) (takeCounted length?) c := by
  have htokens : (e.cursor c).tokens = e.row c.tokens := rfl
  cases hn : length? c.tokens with
  | none =>
    rw [hn] at hcut
    refine ⟨?_, 0, ?_⟩
    · simp only [takeCounted, htokens, hcut, hn, Option.map_none]
      exact (halt_follows c).same
    · simp only [takeCounted, hn]
      rfl
  | some n =>
    rw [hn] at hcut
    refine ⟨?_, n, ?_⟩
    · have hle' := @row_take_le e n c.tokens
      simp only [takeCounted, htokens, hcut, hn, Option.map_some]
      simp only [take, output, htokens, take_row rfl, cursor_drop rfl, trees_tokens, List.map_nil]
      rw [decide_eq_false (Nat.not_lt.mpr (hle n hn)), decide_eq_false (Nat.not_lt.mpr hle')]
    · simp only [takeCounted, hn]
      rfl

theorem node_follows {p q : Rule} (kind : NodeKind) (hc : e.Fit c) (h : e.Follows p q c) :
    e.Follows (node kind p) (node kind q) c := by
  refine ⟨?_, h.drops⟩
  simp only [node, h.same, output, cursor_offset hc, trees, tree, List.append_nil]

theorem report_follows {d : Cursor → Diagnostic} (h : d (e.cursor c) = e.diagnostic (d c)) :
    e.Follows (report d) (report d) c := by
  refine ⟨?_, 0, rfl⟩
  simp only [report, h, output, trees, List.map_cons, List.map_nil]

theorem output_append (a b : Output) :
    e.output (a.append b) = (e.output a).append (e.output b) := by
  simp [Output.append, output]

theorem seq_follows {p q : Rule} {ps qs : List Rule} (hp : e.Follows p q c)
    (hps : e.Follows (seq ps) (seq qs) (q c).cursor) :
    e.Follows (seq (p :: ps)) (seq (q :: qs)) c := by
  constructor
  · simp only [seq, andThen, hp.same, output_append]
    exact congrArg _ hps.same
  · obtain ⟨n, hn⟩ := hp.drops
    obtain ⟨m, hm⟩ := hps.drops
    refine ⟨n + m, ?_⟩
    show (seq qs (q c).cursor).cursor = _
    rw [hm, hn, Cursor.drop, Cursor.drop, Cursor.drop, List.drop_drop]

theorem seq_one {p q : Rule} (hp : e.Follows p q c) : e.Follows (seq [p]) (seq [q]) c :=
  seq_follows hp (skip_follows _)

theorem anywhere_nil : e.Anywhere (seq []) := fun c _ => skip_follows c

theorem anywhere_token {p : Rule} (h : e.Anywhere p) : e.AtToken p := fun c hc _ => h c hc

theorem anywhere_cons {p : Rule} {ps : List Rule} (hp : e.Anywhere p)
    (hps : e.Anywhere (seq ps)) : e.Anywhere (seq (p :: ps)) := fun c hc =>
  seq_follows (hp c hc) (hps _ ((hp c hc).fit hc))

theorem token_cons {p : Rule} {ps : List Rule} (hp : e.AtToken p) (hps : e.Anywhere (seq ps)) :
    e.AtToken (seq (p :: ps)) := fun c hc hs =>
  seq_follows (hp c hc hs) (hps _ ((hp c hc hs).fit hc))

theorem token_one {p : Rule} (hp : e.AtToken p) : e.AtToken (seq [p]) :=
  token_cons hp anywhere_nil

theorem trivia_anywhere : e.Anywhere trivia := fun c hc =>
  take_follows (trivia_cut hc) (trivia_le c.tokens)

/-- Behind the trivia stands a token, if any. -/
theorem trivia_cons {ps : List Rule} (hps : e.AtToken (seq ps)) :
    e.Anywhere (seq (trivia :: ps)) := fun c hc =>
  have ht := trivia_anywhere c hc
  seq_follows ht (hps _ (ht.fit hc) (trivia_settled c))

theorem bump_token : e.AtToken bump := by
  intro c hc hs
  apply take_follows
  · obtain ⟨ts, stop⟩ := c
    cases ts with
    | nil => rfl
    | cons t ts =>
      obtain ⟨u, token, -, -⟩ := settled_kept hc (hs t.kind rfl)
      show min 1 (e.row (t :: ts)).length = (e.row ((t :: ts).take _)).length
      simp [row_keep token]
  · exact Nat.min_le_right _ _

theorem node_anywhere {p : Rule} (kind : NodeKind) (h : e.Anywhere p) :
    e.Anywhere (node kind p) := fun c hc => node_follows kind hc (h c hc)

theorem node_token {p : Rule} (kind : NodeKind) (h : e.AtToken p) :
    e.AtToken (node kind p) := fun c hc hs => node_follows kind hc (h c hc hs)

theorem whenNext_anywhere {p : Rule} {test : TokenKind → Bool}
    (ht : test .newline = test .semicolon) (h : e.Anywhere p) :
    e.Anywhere (whenNext test p) := by
  intro c hc
  simp only [Follows, whenNext, alikeNext_any (peek_alike hc) ht]
  split
  · exact h c hc
  · exact skip_follows c

/-- A round that takes a token takes one that stays, if one stands at its start. -/
theorem shorter_row {t u : Token} {ts : List Token} (token : e.token t = some u) (n : Nat) :
    (e.row ((t :: ts).drop n)).length < (e.row (t :: ts)).length ↔
      ((t :: ts).drop n).length < (t :: ts).length := by
  cases n with
  | zero => simp
  | succ n =>
    have hle : (e.row (ts.drop n)).length ≤ (e.row ts).length := by
      rw [row_split n ts, List.length_append]
      exact Nat.le_add_left _ _
    simp only [List.drop_succ_cons, row_keep token, List.length_cons, List.length_drop]
    omega

/-- A loop commutes with the edit if its rounds keep an invariant and start at a token that
stays. -/
theorem many_follows {test : Cursor → Bool} {p : Rule} {I : Cursor → Prop}
    (htest : ∀ c, e.Fit c → I c → test (e.cursor c) = test c)
    (hkept : ∀ c, e.Fit c → I c → test c = true →
      ∃ t ts u, c.tokens = t :: ts ∧ e.token t = some u)
    (hround : ∀ c, e.Fit c → I c → test c = true → e.Follows p p c ∧ I (p c).cursor)
    (hc : e.Fit c) (hi : I c) : e.Follows (many test p) (many test p) c := by
  fun_induction many test p c with
  | case1 c ht a hlt ih =>
    obtain ⟨hp, hi'⟩ := hround c hc hi ht
    have hrest := ih (hp.fit hc) hi'
    obtain ⟨t, ts, u, htokens, token⟩ := hkept c hc hi ht
    obtain ⟨n, hn⟩ := hp.drops
    obtain ⟨m, hm⟩ := hrest.drops
    have ha : a.cursor = c.drop n := hn
    have hpos : (e.output a).cursor.tokens.length < (e.cursor c).tokens.length := by
      rw [ha] at hlt
      have hshort := (@shorter_row e t u ts token n).mpr (by rw [← htokens]; exact hlt)
      rw [← htokens] at hshort
      show (e.row a.cursor.tokens).length < (e.row c.tokens).length
      rw [ha]
      exact hshort
    have hmany : many test p c = a.append (many test p a.cursor) := by
      rw [many, if_pos ht]
      exact if_pos hlt
    refine ⟨?_, n + m, ?_⟩
    · rw [many, if_pos ((htest c hc hi).trans ht)]
      simp only [hp.same]
      rw [if_pos hpos, hmany, output_append]
      exact congrArg _ hrest.same
    · rw [hmany]
      show (many test p a.cursor).cursor = _
      rw [hm, ha, Cursor.drop, Cursor.drop, Cursor.drop, List.drop_drop]
  | case2 c ht a hlt =>
    obtain ⟨hp, -⟩ := hround c hc hi ht
    obtain ⟨t, ts, u, htokens, token⟩ := hkept c hc hi ht
    obtain ⟨n, hn⟩ := hp.drops
    have ha : a.cursor = c.drop n := hn
    have hstall : ¬(e.output a).cursor.tokens.length < (e.cursor c).tokens.length := by
      intro hpos
      apply hlt
      have hshort : (e.row ((t :: ts).drop n)).length < (e.row (t :: ts)).length := by
        rw [← htokens]
        show (e.row (c.drop n).tokens).length < _
        rw [← ha]
        exact hpos
      rw [ha]
      have hlong := (shorter_row token n).mp hshort
      rw [← htokens] at hlong
      exact hlong
    have hmany : many test p c = { a with stuck := true } := by
      rw [many, if_pos ht]
      exact if_neg hlt
    refine ⟨?_, n, ?_⟩
    · rw [many, if_pos ((htest c hc hi).trans ht)]
      simp only [hp.same]
      rw [if_neg hstall, hmany]
      rfl
    · rw [hmany]
      exact ha
  | case3 c ht =>
    have hmany : many test p c = skip c := by rw [many, if_neg ht]
    refine ⟨?_, 0, ?_⟩
    · rw [many, if_neg (by rwa [htest c hc hi]), hmany]
      rfl
    · rw [hmany]
      rfl

theorem round_settled (p : Rule) (c : Cursor) : Settled (seq [p, trivia] c).cursor :=
  trivia_settled _

theorem many_settled {test : Cursor → Bool} {p : Rule} (hp : ∀ c, Settled (p c).cursor)
    (hc : Settled c) : Settled (many test p c).cursor := by
  fun_induction many test p c with
  | case1 c ht a hlt ih => exact ih (hp c)
  | case2 c ht a hlt => exact hp c
  | case3 c ht => exact hc

/-- A loop that tests the token ahead, with rounds that skip trivia at their end. -/
theorem rounds_token {p : Rule} {q : TokenKind → Bool} (hq : q .newline = q .semicolon)
    (hp : e.AtToken p) : e.AtToken (many (·.current?.any q) (seq [p, trivia])) := by
  intro c hc hs
  refine many_follows (I := Settled) ?_ ?_ ?_ hc hs
  · exact fun c hc hs => alikeNext_any (current_alike hc hs) hq
  · rintro ⟨ts, stop⟩ hc hs htest
    cases ts with
    | nil => simp [Cursor.current?] at htest
    | cons t ts =>
      obtain ⟨u, token, -, -⟩ := settled_kept hc (hs t.kind rfl)
      exact ⟨t, ts, u, rfl, token⟩
  · intro c hc hs _
    exact ⟨token_cons hp (anywhere_cons trivia_anywhere anywhere_nil) c hc hs,
      round_settled p c⟩

theorem record_edited (code : Code) (message : String) (s : Span) :
    Diagnostic.record code message (e.span s) = e.diagnostic (.record code message s) := rfl

theorem discard_anywhere : e.Anywhere discard := by
  intro c hc
  refine node_follows .error hc (counted_follows (statement_cut hc 0) fun n hn => ?_)
  obtain ⟨m, -, hm, hle, -⟩ := statement_measure 0 c.tokens
  obtain rfl : m = n := by simpa [hm] using hn
  exact hle

theorem recover_follows {k : TokenKind} (hc : e.Fit c) (hk : c.current? = some k)
    (hb : isBreak k = false) (hs : Settled c) : e.Follows recover recover c := by
  have hreport : unexpected (e.cursor c) = e.diagnostic (unexpected c) := by
    have hcur := (alikeNext_iff (current_alike hc hs) hb).mpr hk
    rw [unexpected, unexpected, hcur, hk, cursor_span hc hs]
    rfl
  exact seq_follows (report_follows hreport)
    (anywhere_cons discard_anywhere anywhere_nil c hc)

theorem strayBrace_token : e.AtToken strayBrace := by
  intro c hc hs
  refine seq_follows (report_follows ?_) (token_one (node_token .error bump_token) c hc hs)
  simp only [cursor_span hc hs]
  rfl

theorem group_bound {o k : TokenKind} {depth n : Nat} {ts : List Token}
    (h : groupLength? o k depth ts = some n) : n ≤ ts.length := by
  induction ts generalizing depth n with
  | nil =>
    obtain rfl : 0 = n := by simpa [groupLength?] using h
    exact Nat.le_refl 0
  | cons t ts ih =>
    rw [groupLength?.eq_def] at h
    simp only at h
    split at h
    · obtain ⟨m, hm, rfl⟩ := Option.map_eq_some_iff.mp h
      exact Nat.succ_le_succ (ih hm)
    · split at h
      · split at h
        · simp at h
        · obtain rfl : 1 = n := by simpa using h
          simp
        · obtain ⟨m, hm, rfl⟩ := Option.map_eq_some_iff.mp h
          exact Nat.succ_le_succ (ih hm)
      · obtain ⟨m, hm, rfl⟩ := Option.map_eq_some_iff.mp h
        exact Nat.succ_le_succ (ih hm)

theorem tooDeep_token {o k : TokenKind} (ho : isBreak o = false) (hk : isBreak k = false)
    (hto : o.isTrivia = false) (htk : k.isTrivia = false) : e.AtToken (tooDeep o k) := by
  intro c hc hs
  refine seq_follows (report_follows ?_) (seq_follows (node_follows .error hc ?_) ?_)
  · simp only [cursor_span hc hs, record_edited]
  · exact counted_follows (group_cut ho hk hto htk hc 0) fun n hn => group_bound hn
  · exact skip_follows _

theorem missing_anywhere (message : String) : e.Anywhere (missingEndpoint message) := by
  intro c hc
  refine seq_follows (report_follows ?_)
    (seq_follows (node_follows .error hc (skip_follows c)) (skip_follows _))
  simp only [cursor_offset hc]
  rfl

theorem peek_none (hc : e.Fit c) (h : c.peek? = none) : (e.cursor c).peek? = none := by
  rcases peek_alike hc with hsame | ⟨k, -, hk, -⟩
  · exact hsame.trans h
  · simp [h] at hk

theorem terminated_anywhere : e.Anywhere terminated := by
  intro c hc
  have htrivia := @trivia_anywhere e c hc
  have hpeek := peek_alike hc
  cases hk : c.peek? with
  | none =>
    simp only [Follows, terminated, hk, peek_none hc hk]
    exact skip_follows c
  | some k =>
    by_cases ht : isTerminator k = true
    · have hany := alikeNext_any (p := isTerminator) hpeek rfl
      rw [hk, Option.any_some, ht] at hany
      obtain ⟨l, hl, htl⟩ := (Option.any_eq_true _ _).mp hany
      simp only [Follows, terminated, hk, hl, if_pos ht, if_pos htl]
      exact skip_follows c
    have hb : isBreak k = false := by cases k <;> simp_all [isTerminator, isBreak]
    have hcur : (trivia c).cursor.current? = some k := (trivia_current c).trans hk
    have hrecover := recover_follows (htrivia.fit hc) hcur hb (trivia_settled c)
    simp only [Follows, terminated, hk, (alikeNext_iff hpeek hb).mpr hk, if_neg ht]
    split
    · exact trivia_cons (token_one (anywhere_token discard_anywhere)) c hc
    · exact seq_follows htrivia (seq_one hrecover)

theorem closeArray_follows (opening : Span) (hc : e.Fit c) (hs : Settled c) :
    e.Follows (closeArray (e.span opening)) (closeArray opening) c := by
  simp only [Follows, closeArray, alikeNext_iff (current_alike hc hs) (k := .rightBracket) rfl]
  split
  · exact bump_token c hc hs
  · refine ⟨?_, 0, rfl⟩
    simp only [report, unclosedArray, cursor_offset hc]
    rfl

theorem element_token {nested : Rule} (h : e.AtToken nested) : e.AtToken (element nested) := by
  intro c hc hs
  simp only [Follows, element, separator_head hc hs,
    alikeNext_iff (current_alike hc hs) (k := .leftBracket) rfl]
  split
  · exact bump_token c hc hs
  · split
    · exact node_token _ h c hc hs
    · exact node_follows _ hc (take_follows (element_cut hc) (run_le _ _))

theorem array_token (n : Nat) : e.AtToken (array n) := by
  induction n with
  | zero => exact tooDeep_token rfl rfl rfl rfl
  | succ n ih =>
    intro c hc hs
    have hbump := @bump_token e c hc hs
    have htrivia := @trivia_anywhere e _ (hbump.fit hc)
    have hfit := htrivia.fit (hbump.fit hc)
    have hsettled := trivia_settled (bump c).cursor
    have hmany : e.Follows (many inArray (seq [element (array n), trivia]))
        (many inArray (seq [element (array n), trivia])) (trivia (bump c).cursor).cursor :=
      rounds_token rfl (element_token ih) _ hfit hsettled
    have hclose := closeArray_follows c.span (hmany.fit hfit)
      (many_settled (round_settled _) hsettled)
    simp only [Follows, array, cursor_span hc hs]
    exact node_follows .array hc
      (seq_follows hbump (seq_follows htrivia (seq_follows hmany (seq_one hclose))))

theorem text_anywhere (kind : NodeKind) :
    e.Anywhere (whenNext startsText (seq [trivia, node kind (take textLength)])) := by
  refine whenNext_anywhere rfl (trivia_cons (token_one ?_))
  intro c hc _
  exact node_follows kind hc (take_follows (text_cut hc) (run_le _ _))

theorem colon_anywhere {p : Rule} (hp : e.Anywhere p) :
    e.Anywhere (whenNext (· == .colon) (seq [trivia, bump, p])) :=
  whenNext_anywhere rfl (trivia_cons (token_cons bump_token (anywhere_cons hp anywhere_nil)))

theorem label_anywhere : e.Anywhere Grammar.label := colon_anywhere (text_anywhere _)

theorem path_anywhere (kind : NodeKind) : e.Anywhere (node kind (take pathLength)) := by
  intro c hc
  exact node_follows kind hc
    (take_follows (congrArg Path.length (path_cut hc)) (path_bound c.tokens).1)

theorem value_anywhere {a : Rule} (ha : e.AtToken a) : e.Anywhere (value a) := by
  apply colon_anywhere
  intro c hc
  simp only [Follows, alikeNext_iff (peek_alike hc) (k := .leftBracket) rfl]
  split
  · exact trivia_cons (token_one (node_token _ ha)) c hc
  · exact text_anywhere _ c hc

theorem body_anywhere {b : Rule} (hb : e.AtToken b) : e.Anywhere (body b) :=
  whenNext_anywhere rfl (trivia_cons (token_one hb))

theorem break_unconnected {k : TokenKind} (h : isBreak k = true) : k.isConnector = false := by
  rcases break_cases h with rfl | rfl <;> rfl

theorem block_before (hc : e.Fit c) :
    blockBeforeConnector? (e.cursor c) = blockBeforeConnector? c := by
  have hcut := group_cut (o := .leftBrace) (c := .rightBrace) rfl rfl rfl rfl hc 0
  rw [blockBeforeConnector?, blockBeforeConnector?,
    show (e.cursor c).tokens = e.row c.tokens from rfl, hcut, Option.map_map]
  congr 1
  funext n
  rw [Function.comp_apply, cursor_drop rfl]
  exact alikeNext_any (peek_alike (fit_drop hc n)) rfl

section

variable {b : NodeKind → Scope → Rule} {a : Rule} (hb : ∀ kind scope, e.AtToken (b kind scope))

include hb

theorem shapeDefinition_anywhere : e.Anywhere (shapeDefinition b) :=
  node_anywhere _ (anywhere_cons (path_anywhere _)
    (anywhere_cons label_anywhere (anywhere_cons (body_anywhere (hb _ _)) anywhere_nil)))

theorem property_anywhere (ha : e.AtToken a) : e.Anywhere (property b a) :=
  node_anywhere _ (anywhere_cons (path_anywhere _)
    (anywhere_cons (value_anywhere ha) (anywhere_cons (body_anywhere (hb _ _)) anywhere_nil)))

theorem endpoint_token : e.AtToken (endpoint b) := by
  intro c hc hs
  simp only [Follows, endpoint, alikeNext_iff (current_alike hc hs) (k := .leftBrace) rfl]
  split
  · exact hb _ _ c hc hs
  · exact path_anywhere _ c hc

theorem source_token : e.AtToken (source b) := by
  intro c hc hs
  have hend := endpoint_token hb c hc hs
  rcases current_alike hc hs with hsame | ⟨k, l, hk, hl, hbk, hbl⟩
  · simp only [Follows, source, hsame]
    split
    · split
      · exact missing_anywhere _ c hc
      · exact hend
    · exact hend
  · simp only [Follows, source, hk, hl, break_unconnected hbk, break_unconnected hbl]
    exact hend

theorem target_token (connector : TokenKind) : e.AtToken (target b connector) := by
  intro c hc hs
  have hend := endpoint_token hb c hc hs
  rcases current_alike hc hs with hsame | ⟨k, l, hk, hl, hbk, hbl⟩
  · simp only [Follows, target, hsame]
    split
    · exact hend
    · exact hend
    · exact hend
    · exact node_token _ bump_token c hc hs
    · exact missing_anywhere _ c hc
  · have hbreak {d : Cursor} {m : TokenKind} (hd : d.current? = some m) (hm : isBreak m = true) :
        target b connector d =
          missingEndpoint ("expected a shape after " ++ connector.describe) d := by
      rcases break_cases hm with rfl | rfl <;> simp only [target, hd]
    simp only [Follows, hbreak hk hbk, hbreak hl hbl]
    exact missing_anywhere _ c hc

theorem link_follows {k : TokenKind} (hc : e.Fit c) (hk : c.peek? = some k)
    (hconn : k.isConnector = true) : e.Follows (link b) (link b) c := by
  have hbreak : isBreak k = false := by
    cases k <;> simp_all [TokenKind.isConnector, TokenKind.connector?, isBreak]
  simp only [Follows, link, hk, (alikeNext_iff (peek_alike hc) hbreak).mpr hk]
  exact trivia_cons (token_cons bump_token (trivia_cons (token_one (target_token hb k)))) c hc

theorem links_anywhere : e.Anywhere (many (·.peek?.any (·.isConnector)) (link b)) := by
  intro c hc
  refine many_follows (I := fun _ => True) ?_ ?_ ?_ hc trivial
  · exact fun c hc _ => alikeNext_any (peek_alike hc) rfl
  · -- in front of a connector no trivia is left out
    rintro ⟨ts, stop⟩ hc - htest
    have hc : e.Fits stop ts := hc
    cases hc with
    | nil => simp [Cursor.peek?] at htest
    | keep token => exact ⟨_, _, _, rfl, token⟩
    | @leave t ts token trivia ends =>
      cases ts with
      | nil => simp [Cursor.peek?, trivia] at htest
      | cons u ts =>
        have hu : u.isTrivia = false := by
          cases h : u.isTrivia with
          | false => rfl
          | true => simp [AtBreak, trivia_unbroken h] at ends
        have hpeek : Cursor.peek? ⟨t :: u :: ts, stop⟩ = some u.kind := by
          simp [Cursor.peek?, trivia, hu]
        simp [hpeek, break_unconnected ends] at htest
  · intro c hc _ htest
    obtain ⟨k, hk, hconn⟩ := (Option.any_eq_true _ _).mp htest
    exact ⟨link_follows hb hc hk hconn, trivial⟩

theorem connection_token : e.AtToken (connection b) :=
  node_token _ (token_cons (source_token hb) (anywhere_cons (links_anywhere hb)
    (anywhere_cons label_anywhere (anywhere_cons (body_anywhere (hb _ _)) anywhere_nil))))

theorem bareBlock_follows (scope : Scope) (hc : e.Fit c) (hs : Settled c)
    (hk : c.current? = some .leftBrace) : e.Follows (bareBlock b scope) (bareBlock b scope) c := by
  cases scope with
  | document =>
    refine seq_follows (report_follows ?_) (seq_one (hb _ _ c hc hs))
    simp only [anonymousBlock, cursor_span hc hs]
    rfl
  | shape => exact hb _ _ c hc hs
  | block => exact recover_follows hc hk rfl hs

theorem named_token (ha : e.AtToken a) (scope : Scope) : e.AtToken (named b a scope) := by
  intro c hc hs
  have hpath := path_cut hc
  have hdrop : (e.cursor c).drop (path (e.row c.tokens)).length =
      e.cursor (c.drop (path c.tokens).length) := cursor_drop (congrArg Path.length hpath)
  have hafter := alikeNext_any (p := (·.isConnector))
    (peek_alike (fit_drop hc (path c.tokens).length)) rfl
  have hword : (path (e.row c.tokens)).hasKeyword = (path c.tokens).hasKeyword := by rw [hpath]
  simp only [Follows, named, show (e.cursor c).tokens = e.row c.tokens from rfl, hdrop, hafter,
    hword]
  split
  · exact connection_token hb c hc hs
  · split
    · exact property_anywhere hb ha c hc
    · exact shapeDefinition_anywhere hb c hc

theorem statement_follows (ha : e.AtToken a) (scope : Scope) {k : TokenKind} (hc : e.Fit c)
    (hs : Settled c) (hk : c.current? = some k) (hbreak : isBreak k = false) :
    e.Follows (statement b a scope) (statement b a scope) c := by
  have hke := (alikeNext_iff (current_alike hc hs) hbreak).mpr hk
  simp only [Follows, statement, hke, hk, block_before hc]
  split
  · next hl =>
    split
    · exact connection_token hb c hc hs
    · exact bareBlock_follows hb scope hc hs (hk.trans hl)
    · exact halt_follows c
  · exact named_token hb ha scope c hc hs
  · exact named_token hb ha scope c hc hs
  · exact discard_anywhere c hc
  · next k' _ _ _ _ hk' =>
    split
    · exact connection_token hb c hc hs
    · exact recover_follows hc hk hbreak hs
  · next hn => simp at hn

theorem item_token (ha : e.AtToken a) (scope : Scope) : e.AtToken (item b a scope) := by
  intro c hc hs
  rcases current_alike hc hs with hsame | ⟨k, l, hk, hl, hbk, hbl⟩
  · simp only [Follows, item, hsame]
    split
    · exact bump_token c hc hs
    · exact bump_token c hc hs
    · exact strayBrace_token c hc hs
    · next hn hm hr =>
      have hstatement : e.Follows (statement b a scope) (statement b a scope) c := by
        cases hk : c.current? with
        | none =>
          simp only [Follows, statement, hsame, hk]
          exact skip_follows c
        | some k =>
          refine statement_follows hb ha scope hc hs hk ?_
          cases k <;> simp_all [isBreak]
      exact seq_follows hstatement (anywhere_cons terminated_anywhere anywhere_nil _
        (hstatement.fit hc))
  · have hbump {d : Cursor} {m : TokenKind} (hd : d.current? = some m) (hm : isBreak m = true) :
        item b a scope d = bump d := by
      rcases break_cases hm with rfl | rfl <;> simp only [item, hd]
    simp only [Follows, hbump hk hbk, hbump hl hbl]
    exact bump_token c hc hs

theorem rounds_statements (ha : e.AtToken a) (scope : Scope) :
    e.AtToken (many (inStatements scope) (seq [item b a scope, trivia])) :=
  rounds_token (q := fun k => scope == .document || k != .rightBrace)
    (by cases scope <;> rfl) (item_token hb ha scope)

theorem statements_anywhere (ha : e.AtToken a) (scope : Scope) :
    e.Anywhere (statements b a scope) :=
  trivia_cons (token_one (rounds_statements hb ha scope))

end

theorem statements_settled (b : NodeKind → Scope → Rule) (a : Rule) (scope : Scope) (c : Cursor) :
    Settled (statements b a scope c).cursor :=
  many_settled (round_settled _) (trivia_settled c)

theorem closeBlock_follows (opening : Span) (hc : e.Fit c) (hs : Settled c) :
    e.Follows (closeBlock (e.span opening)) (closeBlock opening) c := by
  simp only [Follows, closeBlock, alikeNext_iff (current_alike hc hs) (k := .rightBrace) rfl]
  split
  · exact bump_token c hc hs
  · refine ⟨?_, 0, rfl⟩
    simp only [report, unclosedBlock, cursor_offset hc]
    rfl

theorem braced_token (n : Nat) (kind : NodeKind) (scope : Scope) :
    e.AtToken (braced n kind scope) := by
  induction n generalizing kind scope with
  | zero => exact tooDeep_token rfl rfl rfl rfl
  | succ n ih =>
    intro c hc hs
    have hbump := @bump_token e c hc hs
    have hlist := statements_anywhere ih (array_token n) scope _ (hbump.fit hc)
    have hclose := closeBlock_follows c.span (hlist.fit (hbump.fit hc)) (statements_settled _ _ _ _)
    simp only [Follows, braced, cursor_span hc hs]
    exact node_follows kind hc (seq_follows hbump (seq_follows hlist (seq_one hclose)))

/-- The document rule reads the edited tokens into the edited trees, with the edited
diagnostics. -/
theorem document_edited (hc : e.Fit c) : document (e.cursor c) = e.output (document c) :=
  (statements_anywhere (braced_token maxNesting) (array_token maxNesting) .document c hc).same

end Edit

end DiagramText
