import DiagramText.Proofs.Balance
import DiagramText.Proofs.Nesting

/-!
# What stands before a newline

A document is continued by a newline and further tokens. Every measure of the
tokens ahead stops at that newline as it stops at the end of a document, and a
group that closes in front of it is counted to the same brace. So a rule that
finds nothing to report in front of the newline builds the same trees in the
longer document, and the statement list goes on behind the newline.
-/

set_option autoImplicit false

namespace DiagramText.Joint
open Rule Lookahead Grammar Measures Braces Balance Production Reading Nesting
open DiagramText.Tree (nodesAll tokensAll tokensAll_append tokensAll_map_token forall_nodes_append
  forall_nodes_node)

/-- A newline with the tokens behind it, and where the longer document ends. -/
structure Tail where
  newline : Token
  rest : List Token
  stop : Nat
  kind : newline.kind = .newline

namespace Tail

variable (v : Tail)

def tokens : List Token := v.newline :: v.rest

def extend (c : Cursor) : Cursor := ⟨c.tokens ++ v.tokens, v.stop⟩

def output (o : Output) : Output := { o with cursor := v.extend o.cursor }

theorem trivia_length (ts : List Token) : triviaLength (ts ++ v.tokens) = triviaLength ts := by
  rw [triviaLength, tokens,
    takeWhile_stops (by simp [Token.isTrivia, v.kind, TokenKind.isTrivia])]
  rfl

theorem run_length {stops : Token → Bool} (h : stops v.newline = true) (ts : List Token) :
    runLength stops (ts ++ v.tokens) = runLength stops ts := by
  rw [runLength, tokens, takeWhile_stops (by simp [h])]
  rfl

theorem text_length (ts : List Token) : textLength (ts ++ v.tokens) = textLength ts :=
  v.run_length (by simp [stopsText, v.kind]) ts

theorem element_length (ts : List Token) : elementLength (ts ++ v.tokens) = elementLength ts :=
  v.run_length (by simp [stopsElement, isSeparator, v.kind]) ts

theorem more_words (ts : List Token) : moreWords (ts ++ v.tokens) = moreWords ts := by
  fun_induction moreWords ts with
  | case1 blank word ts h ih =>
    rw [List.cons_append, List.cons_append, moreWords, if_pos h, ih]
  | case2 blank word ts h => rw [List.cons_append, List.cons_append, moreWords, if_neg h]
  | case3 ts h =>
    cases ts with
    | nil => exact words_none (by simp [v.kind]) v.rest
    | cons a ts =>
      cases ts with
      | nil => simp [tokens, moreWords, v.kind]
      | cons b ts => exact absurd rfl (h a b ts)

theorem segment_length (ts : List Token) : segmentLength (ts ++ v.tokens) = segmentLength ts := by
  cases ts with
  | nil => simp [tokens, segmentLength, v.kind]
  | cons t ts => simp only [List.cons_append, segmentLength, more_words]

theorem keyword_segment (ts : List Token) :
    isKeywordSegment (ts ++ v.tokens) = isKeywordSegment ts := by
  rw [isKeywordSegment, v.segment_length]
  cases ts with
  | nil => simp [isKeywordSegment, segmentLength]
  | cons t ts => rfl

theorem drop_append {n : Nat} {ts : List Token} (h : n ≤ ts.length) :
    (ts ++ v.tokens).drop n = ts.drop n ++ v.tokens :=
  List.drop_append_of_le_length h

theorem head_starts (ts : List Token) :
    (ts ++ v.tokens).head?.any (startsSegment ·.kind) = ts.head?.any (startsSegment ·.kind) := by
  cases ts with
  | nil => simp [tokens, v.kind, startsSegment]
  | cons t ts => rfl

theorem joint_length (ts : List Token) : jointLength? (ts ++ v.tokens) = jointLength? ts := by
  simp only [jointLength?, trivia_length, v.drop_append (trivia_le ts)]
  cases ts.drop (triviaLength ts) with
  | nil => simp [tokens, v.kind]
  | cons dot rest =>
    simp only [List.cons_append, trivia_length, v.drop_append (trivia_le rest), head_starts]

theorem path_same (ts : List Token) : path (ts ++ v.tokens) = path ts := by
  fun_induction path ts with
  | case1 ts n hn hj =>
    rw [path]
    simp only [segment_length, v.drop_append (segment_bound ts).1, joint_length, keyword_segment]
    rw [dif_pos hn, hj]
  | case2 ts n hn k hj rest ih =>
    have hk := (joint_bound _ k hj).1
    rw [List.length_drop] at hk
    have hle : n + k ≤ ts.length := by
      have hs := (segment_bound ts).1
      omega
    rw [path]
    simp only [segment_length, v.drop_append (segment_bound ts).1, joint_length, keyword_segment]
    rw [dif_pos hn, hj]
    show Lookahead.Path.mk (n + k + (path ((ts ++ v.tokens).drop (n + k))).length)
      (isKeywordSegment ts || (path ((ts ++ v.tokens).drop (n + k))).hasKeyword) = _
    rw [v.drop_append hle, ih]
  | case3 ts n hn =>
    rw [path]
    simp only [segment_length]
    rw [dif_neg hn]

theorem current_extend (c : Cursor) :
    (v.extend c).current? = c.current?.or (some .newline) := by
  obtain ⟨ts, size⟩ := c
  cases ts with
  | nil => simp [extend, Cursor.current?, tokens, v.kind]
  | cons t ts => rfl

theorem peek_extend (c : Cursor) : (v.extend c).peek? = c.peek?.or (some .newline) := by
  have hv : v.tokens.find? (!·.isTrivia) = some v.newline := by
    simp [tokens, Token.isTrivia, v.kind, TokenKind.isTrivia]
  simp only [extend, Cursor.peek?, List.find?_append, hv]
  cases c.tokens.find? (!·.isTrivia) with
  | none => simp [v.kind]
  | some t => rfl

theorem current_some {c : Cursor} {k : TokenKind} (h : c.current? = some k) :
    (v.extend c).current? = some k := by
  rw [current_extend, h]
  rfl

theorem peek_some {c : Cursor} {k : TokenKind} (h : c.peek? = some k) :
    (v.extend c).peek? = some k := by
  rw [peek_extend, h]
  rfl

theorem peek_any {test : TokenKind → Bool} (h : test .newline = false) (c : Cursor) :
    (v.extend c).peek?.any test = c.peek?.any test := by
  rw [peek_extend]
  cases c.peek? with
  | none => simp [h]
  | some k => rfl

theorem current_any {test : TokenKind → Bool} {c : Cursor} (h : c.current?.any test = true) :
    (v.extend c).current?.any test = true := by
  obtain ⟨k, hk, ht⟩ := (Option.any_eq_true _ _).mp h
  exact (Option.any_eq_true _ _).mpr ⟨k, v.current_some hk, ht⟩

theorem drop_extend {n : Nat} {c : Cursor} (h : n ≤ c.tokens.length) :
    (v.extend c).drop n = v.extend (c.drop n) := by
  simp only [extend, Cursor.drop, v.drop_append h]

/-- The cursor stands in front of the newline, with nothing that the scanner has reported. -/
structure Meets (c : Cursor) : Prop where
  stop : c.stop = v.newline.start
  readable : ∀ t ∈ c.tokens, t.kind ≠ .error

variable {v} in
theorem Meets.current {c : Cursor} (h : v.Meets c) : c.current? ≠ some .error := by
  intro hc
  obtain ⟨t, ts, heq, ht⟩ := current_cons hc
  exact h.readable t (by rw [heq]; exact List.mem_cons_self) ht

variable {v} in
theorem Meets.tail {t : Token} {ts : List Token} {size : Nat} (h : v.Meets ⟨t :: ts, size⟩) :
    v.Meets ⟨ts, size⟩ :=
  ⟨h.stop, fun u hu => h.readable u (List.mem_cons_of_mem t hu)⟩

theorem offset_extend {c : Cursor} (h : v.Meets c) : (v.extend c).offset = c.offset := by
  obtain ⟨ts, size⟩ := c
  cases ts with
  | nil => exact h.stop.symm
  | cons t ts => rfl

end Tail

/-- No array holds an opening brace. -/
def BracelessArrays (xs : List Tree) : Prop :=
  ∀ n ∈ nodesAll xs, n.isKind .array = true → ∀ t ∈ n.tokens, t.kind ≠ .leftBrace

structure Faultless (o : Output) : Prop where
  runs : o.stuck = false
  silent : o.diagnostics = []
  tidy : BracelessArrays o.trees

/-- The rule reads the same in front of the newline, and what it takes has the property. -/
structure Carries (v : Tail) (Q : List Token → Prop) (p : Rule) (c : Cursor) : Prop where
  same : p (v.extend c) = v.output (p c)
  stop : (p c).cursor.stop = c.stop
  tokens : c.tokens = tokensAll (p c).trees ++ (p c).cursor.tokens
  piece : Q (tokensAll (p c).trees)

def Passes (v : Tail) (Q : List Token → Prop) (p : Rule) (c : Cursor) : Prop :=
  v.Meets c → Faultless (p c) → Carries v Q p c

/-- A property of pieces that passes along a row of them. -/
structure PassesAlong (Q : List Token → Prop) : Prop where
  nil : Q []
  append : ∀ {us ws}, Q us → Q ws → Q (us ++ ws)

def Balanced (us : List Token) : Prop := braceDepth? 0 us = some 0

def Braceless (us : List Token) : Prop := ∀ t ∈ us, isBrace t.kind = false

/-- Tokens that close no block. -/
def Inner (us : List Token) : Prop := ∀ t ∈ us, t.kind ≠ .rightBrace

theorem balanced_joins : PassesAlong Balanced where
  nil := rfl
  append {us ws} hu hw := by
    rw [Balanced, depth_append, show braceDepth? 0 us = some 0 from hu]
    exact hw

theorem inner_joins : PassesAlong Inner where
  nil := by simp [Inner]
  append hu hw t ht := (List.mem_append.mp ht).elim (hu t) (hw t)

theorem braceless_balanced {us : List Token} (h : Braceless us) : Balanced us := depth_plain 0 us h

theorem braceless_inner {us : List Token} (h : Braceless us) : Inner us := by
  intro t ht hk
  simpa [isBrace, hk] using h t ht

theorem faultless_append {a b : Output} (h : Faultless (a.append b)) :
    Faultless a ∧ Faultless b := by
  obtain ⟨hruns, hsilent, htidy⟩ := h
  simp only [Output.append, Bool.or_eq_false_iff] at hruns
  simp only [Output.append, List.append_eq_nil_iff] at hsilent
  obtain ⟨hx, hy⟩ := forall_nodes_append.mp htidy
  exact ⟨⟨hruns.1, hsilent.1, hx⟩, ⟨hruns.2, hsilent.2, hy⟩⟩

theorem faultless_node {kind : NodeKind} {p : Rule} {c : Cursor} (h : Faultless (node kind p c)) :
    Faultless (p c) :=
  ⟨h.runs, h.silent, (forall_nodes_node.mp h.tidy).2⟩

section

variable {v : Tail} {Q R : List Token → Prop} {p : Rule} {c : Cursor}

theorem carries_meets (h : Carries v Q p c) (hm : v.Meets c) : v.Meets (p c).cursor := by
  refine ⟨h.stop.trans hm.stop, fun t ht => hm.readable t ?_⟩
  rw [h.tokens]
  exact List.mem_append_right _ ht

theorem passes_weaken (h : Passes v Q p c) (hQ : ∀ us, Q us → R us) : Passes v R p c := by
  intro hm hclean
  obtain ⟨hsame, hstop, htokens, hpiece⟩ := h hm hclean
  exact ⟨hsame, hstop, htokens, hQ _ hpiece⟩

theorem passes_reported (h : (p c).diagnostics ≠ []) : Passes v Q p c :=
  fun _ hclean => absurd hclean.silent h

theorem report_speaks (d : Cursor → Diagnostic) (ps : List Rule) (c : Cursor) :
    (seq (report d :: ps) c).diagnostics ≠ [] := by
  simp [seq, andThen, report, Output.append]

theorem skip_passes (hQ : PassesAlong Q) : Passes v Q skip c :=
  fun _ _ => ⟨rfl, rfl, rfl, hQ.nil⟩

theorem take_passes {length : List Token → Nat}
    (hlen : length (c.tokens ++ v.tokens) = length c.tokens)
    (hle : length c.tokens ≤ c.tokens.length)
    (hQ : Q (c.tokens.take (length c.tokens))) : Passes v Q (take length) c := by
  intro hm _
  refine ⟨?_, rfl, ?_, ?_⟩
  · have htake : (v.extend c).tokens.take (length c.tokens) = c.tokens.take (length c.tokens) :=
      List.take_append_of_le_length hle
    have hlong : ¬(v.extend c).tokens.length < length c.tokens := by
      simp only [Tail.extend, List.length_append]
      omega
    have hshort : ¬c.tokens.length < length c.tokens := Nat.not_lt.mpr hle
    have hlen' : length (v.extend c).tokens = length c.tokens := hlen
    simp only [take, Tail.output, hlen', htake, v.drop_extend hle, hlong, hshort]
  · simp only [take, Cursor.drop, tokensAll_map_token, List.take_append_drop]
  · simpa only [take, tokensAll_map_token] using hQ

theorem trivia_passes (hQ : ∀ us, Braceless us → Q us) (c : Cursor) : Passes v Q trivia c := by
  refine take_passes (v.trivia_length c.tokens) (trivia_le c.tokens) (hQ _ fun t ht => ?_)
  have hv := trivia_tokens c.tokens t ht
  cases hk : t.kind <;> simp_all [Token.isTrivia, TokenKind.isTrivia, isBrace]

theorem bump_passes {k : TokenKind} (h : c.current? = some k) (hQ : ∀ t, t.kind = k → Q [t]) :
    Passes v Q bump c := by
  obtain ⟨t, ts, hc, hk⟩ := current_cons h
  have hct : c.tokens = t :: ts := by rw [hc]
  apply take_passes
  · simp [hct]
  · simp [hct]
  · simpa [hct] using hQ t hk

theorem node_passes (kind : NodeKind) (h : Passes v Q p c) : Passes v Q (node kind p) c := by
  intro hm hclean
  obtain ⟨hsame, hstop, htokens, hpiece⟩ := h hm (faultless_node hclean)
  refine ⟨?_, hstop, ?_, ?_⟩
  · simp only [node, hsame, v.offset_extend hm, Tail.output]
  · simpa [node, tokensAll, Tree.tokens] using htokens
  · simpa [node, tokensAll, Tree.tokens] using hpiece

theorem output_append (a b : Output) : v.output (a.append b) = (v.output a).append (v.output b) :=
  rfl

theorem seq_passes {ps : List Rule} (hQ : PassesAlong Q) (hp : Passes v Q p c)
    (hps : Passes v Q (seq ps) (p c).cursor) : Passes v Q (seq (p :: ps)) c := by
  intro hm hclean
  obtain ⟨ha, hb⟩ := faultless_append hclean
  have hfirst := hp hm ha
  obtain ⟨hsame, hstop, htokens, hpiece⟩ := hps (carries_meets hfirst hm) hb
  refine ⟨?_, hstop.trans hfirst.stop, ?_, ?_⟩
  · simp only [seq, andThen, hfirst.same, output_append]
    exact congrArg _ hsame
  · simp only [seq, andThen, Output.append, tokensAll_append, List.append_assoc]
    rw [← htokens]
    exact hfirst.tokens
  · simp only [seq, andThen, Output.append, tokensAll_append]
    exact hQ.append hfirst.piece hpiece

theorem seq_nil (hQ : PassesAlong Q) (c : Cursor) : Passes v Q (seq []) c := skip_passes hQ

theorem seq_one (hQ : PassesAlong Q) (hp : Passes v Q p c) : Passes v Q (seq [p]) c :=
  seq_passes hQ hp (seq_nil hQ _)

/-- A rule that does what another does, here and in front of the newline. -/
theorem passes_as {q : Rule} (hc : p c = q c) (hv : p (v.extend c) = q (v.extend c))
    (h : Passes v Q q c) : Passes v Q p c := by
  intro hm hclean
  rw [hc] at hclean
  obtain ⟨hsame, hstop, htokens, hpiece⟩ := h hm hclean
  exact ⟨by rw [hv, hc, hsame], by rw [hc, hstop], by rw [hc]; exact htokens, by rwa [hc]⟩

theorem whenNext_passes {test : TokenKind → Bool} (hQ : PassesAlong Q) (hn : test .newline = false)
    (h : ∀ k, c.peek? = some k → test k = true → Passes v Q p c) :
    Passes v Q (whenNext test p) c := by
  by_cases ht : c.peek?.any test = true
  · obtain ⟨k, hk, htest⟩ := (Option.any_eq_true _ _).mp ht
    exact passes_as (if_pos ht) (if_pos (by rwa [v.peek_any hn])) (h k hk htest)
  · exact passes_as (if_neg ht) (if_neg (by rwa [v.peek_any hn])) (skip_passes hQ)

/-- In front of the newline the rule reads the same, and the rest reads on from there. -/
structure Resumes (v : Tail) (Q : List Token → Prop) (p rest : Rule) (c : Cursor) : Prop where
  same : p (v.extend c) = (v.output (p c)).append (rest (v.extend (p c).cursor))
  stop : (p c).cursor.stop = c.stop
  tokens : c.tokens = tokensAll (p c).trees ++ (p c).cursor.tokens
  piece : Q (tokensAll (p c).trees)

theorem resumes_behind {whole q rest : Rule} (hQ : PassesAlong Q) (hfirst : Carries v Q p c)
    (h : Resumes v Q q rest (p c).cursor) (hc : whole c = (p c).append (q (p c).cursor))
    (hv : whole (v.extend c) = (p (v.extend c)).append (q (p (v.extend c)).cursor)) :
    Resumes v Q whole rest c := by
  obtain ⟨hsame, hstop, htokens, hpiece⟩ := h
  rw [hfirst.same] at hv
  constructor
  · rw [hv, hc]
    show (v.output (p c)).append (q (v.extend (p c).cursor)) = _
    rw [hsame]
    simp [Output.append, Tail.output, Bool.or_assoc]
  · rw [hc]
    exact hstop.trans hfirst.stop
  · rw [hc]
    simp only [Output.append, tokensAll_append, List.append_assoc]
    rw [← htokens]
    exact hfirst.tokens
  · rw [hc]
    simp only [Output.append, tokensAll_append]
    exact hQ.append hfirst.piece hpiece

theorem many_resumes {test : Cursor → Bool} (hQ : PassesAlong Q)
    (htest : ∀ c, test c = true → test (v.extend c) = true)
    (hround : ∀ c, test c = true → Passes v Q p c) (c : Cursor) (hm : v.Meets c)
    (hclean : Faultless (many test p c)) : Resumes v Q (many test p) (many test p) c := by
  fun_induction many test p c with
  | case1 c ht a hlt ih =>
    obtain ⟨ha, hb⟩ := faultless_append hclean
    have hfirst := hround c ht hm ha
    have hshort : (p (v.extend c)).cursor.tokens.length < (v.extend c).tokens.length := by
      have hshorter : (p c).cursor.tokens.length < c.tokens.length := hlt
      rw [hfirst.same]
      simp only [Tail.output, Tail.extend, List.length_append]
      omega
    refine resumes_behind hQ hfirst (ih (carries_meets hfirst hm) hb) ?_ ?_
    · rw [many, if_pos ht]
      exact if_pos hlt
    · rw [many, if_pos (htest c ht)]
      exact if_pos hshort
  | case2 c ht a hlt => exact absurd hclean.runs (by simp)
  | case3 c ht =>
    have hskip : many test p c = skip c := by rw [many, if_neg ht]
    constructor
    · rw [hskip]
      simp [skip, Output.append, Tail.output]
    · rw [hskip]
      rfl
    · rw [hskip]
      rfl
    · rw [hskip]
      exact hQ.nil

theorem many_ends {test : Cursor → Bool} (c : Cursor) (h : (many test p c).stuck = false) :
    test (many test p c).cursor = false := by
  fun_induction many test p c with
  | case1 c ht a hlt ih =>
    simp only [Output.append, Bool.or_eq_false_iff] at h
    exact ih h.2
  | case2 c ht a hlt => simp at h
  | case3 c ht => simpa [skip] using ht

/-- Where a loop does not go on, there is nothing to resume. -/
theorem many_stops {test : Cursor → Bool} {o : Output}
    (h : test (v.extend o.cursor) = false) :
    (v.output o).append (many test p (v.extend o.cursor)) = v.output o := by
  rw [many, if_neg (by simp [h])]
  simp [skip, Output.append, Tail.output]

theorem resumes_over {q : Rule} {test : Cursor → Bool} (h : Resumes v Q q (many test p) c)
    (hend : test (v.extend (q c).cursor) = false) : Carries v Q q c :=
  ⟨h.same.trans (many_stops hend), h.stop, h.tokens, h.piece⟩

theorem many_passes {test : Cursor → Bool} (hQ : PassesAlong Q)
    (htest : ∀ c, test (v.extend c) = test c)
    (hround : ∀ c, test c = true → Passes v Q p c) : Passes v Q (many test p) c := by
  intro hm hclean
  have hend : test (v.extend (many test p c).cursor) = false :=
    (htest _).trans (many_ends c hclean.runs)
  exact resumes_over (many_resumes hQ (fun c h => (htest c).trans h) hround c hm hclean) hend

theorem list_resumes {test : Cursor → Bool} (hQ : PassesAlong Q) (hbare : ∀ us, Braceless us → Q us)
    (htest : ∀ c, test c = true → test (v.extend c) = true)
    (hround : ∀ c, test c = true → Passes v Q p c) (c : Cursor) (hm : v.Meets c)
    (hclean : Faultless (seq [trivia, many test p] c)) :
    Resumes v Q (seq [trivia, many test p]) (many test p) c := by
  obtain ⟨ha, hb⟩ := faultless_append hclean
  obtain ⟨hb, -⟩ := faultless_append hb
  have hfirst := trivia_passes hbare c hm ha
  have hlist (c : Cursor) :
      seq [trivia, many test p] c = (trivia c).append (many test p (trivia c).cursor) := by
    simp [seq, andThen, skip, Output.append]
  exact resumes_behind hQ hfirst
    (many_resumes hQ htest hround (trivia c).cursor (carries_meets hfirst hm) hb) (hlist _)
    (hlist _)

end

end DiagramText.Joint
