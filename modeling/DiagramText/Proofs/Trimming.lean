import DiagramText.Parse
import DiagramText.Proofs.EditedGrammar
import DiagramText.Proofs.Lines
import Mathlib.Algebra.GroupWithZero.Nat

/-!
# Trimming the tokens of a text

A text loses some characters, token by token, and a token that keeps none of
them goes. When a scanner over the trimmed text reads what is left of each
token, it hands out the tokens of an edit, whose offsets count the bytes that
were lost in front of a place.
-/

set_option autoImplicit false

namespace DiagramText.Trimming
open Text Scanning Layout Lines Lexeme DiagramText.Tree

theorem drain_edited {e : Edit} {R : Scanner → Scanner → Prop}
    (hend : ∀ s s', R s s' → s.next? = none → s'.next? = none)
    (hstep : ∀ s s' t u, R s s' → s.next? = some (t, u) →
      e.token t = none ∧ R u s' ∨
        ∃ v u', e.token t = some v ∧ s'.next? = some (v, u') ∧ R u u') (s : Scanner) :
    ∀ s', R s s' → s'.drain.1 = e.row s.drain.1 ∧ R s.drain.2 s'.drain.2 := by
  fun_induction Scanner.drain s with
  | case1 s hnone =>
    intro s' h
    rw [drain_end (hend s s' h hnone)]
    exact ⟨rfl, h⟩
  | case2 s t u hnext rest ih =>
    intro s' h
    rcases hstep s s' t u h hnext with ⟨token, hrest⟩ | ⟨v, u', token, hnext', hrest⟩
    · rw [Edit.row_leave token]
      exact ih s' hrest
    · obtain ⟨hrow, hlast⟩ := ih u' hrest
      rw [drain_next hnext', Edit.row_keep token, hrow]
      exact ⟨rfl, hlast⟩

theorem next_read {s : Scanner} {c : Char} {xs ys : List Char} {r : Reading}
    (hrest : s.rest = c :: (xs ++ ys))
    (hread : Lexeme.read s.afterWord s.unclosed c (xs ++ ys) = (r, xs.length)) :
    s.next? = some (⟨kind r, s.offset, c :: xs⟩,
      ⟨ys, Token.stop ⟨kind r, s.offset, c :: xs⟩, kind r == .identifier,
        Scanner.noteUnclosed s.unclosed ⟨kind r, s.offset, c :: xs⟩ (xs ++ ys),
        s.diagnostics ++ Lexeme.diagnostics ⟨kind r, s.offset, c :: xs⟩ r⟩) := by
  simp only [Scanner.next?, hrest, hread, List.take_left, List.drop_left]

theorem inside_step {g : Nat → Nat} {start width n : Nat}
    (hg : ∀ k ≤ width + n, g (start + k) = g start + k) :
    g (start + width) = g start + width ∧
      ∀ k ≤ n, g (start + width + k) = g (start + width) + k := by
  have hwidth := hg width (Nat.le_add_right _ _)
  refine ⟨hwidth, fun k hk => ?_⟩
  rw [hwidth, Nat.add_assoc, Nat.add_assoc]
  exact hg (width + k) (Nat.add_le_add_left hk _)

theorem inside_escape {g : Nat → Nat} {start : Nat} {c : Char} {cs : List Char}
    (hg : ∀ k ≤ byteSize ('\\' :: c :: cs), g (start + k) = g start + k) :
    g (start + 1 + c.utf8Size) = g start + 1 + c.utf8Size ∧
      ∀ k ≤ byteSize cs, g (start + 1 + c.utf8Size + k) = g (start + 1 + c.utf8Size) + k := by
  obtain ⟨hbackslash, hafter⟩ := inside_step hg
  obtain ⟨hchar, hrest⟩ := inside_step hafter
  exact ⟨hchar.trans (congrArg (· + c.utf8Size) hbackslash), hrest⟩

theorem escapes_edited {g : Nat → Nat} {start : Nat} {cs : List Char}
    (hg : ∀ k ≤ byteSize cs, g (start + k) = g start + k) :
    Literal.unknownEscapes (g start) cs =
        (Literal.unknownEscapes start cs).map (fun x => (g x.1, x.2)) ∧
      ∀ x ∈ Literal.unknownEscapes start cs,
        g (x.1 + 1 + x.2.utf8Size) = g x.1 + 1 + x.2.utf8Size := by
  fun_induction Literal.unknownEscapes start cs with
  | case1 start c cs rest hc ih =>
    obtain ⟨hpair, hrest⟩ := inside_escape hg
    obtain ⟨hsame, hstops⟩ := ih hrest
    rw [hpair] at hsame
    rw [Literal.unknownEscapes, if_pos hc]
    exact ⟨hsame, hstops⟩
  | case2 start c cs rest hc ih =>
    obtain ⟨hpair, hrest⟩ := inside_escape hg
    obtain ⟨hsame, hstops⟩ := ih hrest
    rw [hpair] at hsame
    rw [Literal.unknownEscapes, if_neg hc]
    exact ⟨congrArg ((g start, c) :: ·) hsame, List.forall_mem_cons.mpr ⟨hpair, hstops⟩⟩
  | case3 start c cs hne ih =>
    obtain ⟨hchar, hrest⟩ := inside_step hg
    obtain ⟨hsame, hstops⟩ := ih hrest
    rw [Literal.unknownEscapes, ← hchar]
    · exact ⟨hsame, hstops⟩
    · exact hne
  | case4 start => exact ⟨rfl, by simp⟩

theorem faults_edited {e : Edit} {t : Token}
    (hin : ∀ k ≤ byteSize t.text, e.offset (t.start + k) = e.offset t.start + k) (r : Reading) :
    Lexeme.diagnostics { t with start := e.offset t.start } r =
      (Lexeme.diagnostics t r).map e.diagnostic := by
  cases r with
  | error f =>
    have hspan : Token.span { t with start := e.offset t.start } = e.span t.span := by
      rw [Token.span, Token.span, Edit.span, Token.stop, Token.stop, hin _ le_rfl]
    cases f <;> simp only [Lexeme.diagnostics, Fault.diagnostic, hspan] <;> rfl
  | ok k =>
    cases k with
    | string =>
      obtain ⟨hsame, hstops⟩ := escapes_edited hin
      simp only [Lexeme.diagnostics, hsame, List.map_map]
      refine List.map_congr_left fun x hx => ?_
      simp only [Function.comp_apply, escapeDiagnostic, ← hstops x hx]
      rfl
    | _ => rfl

/-- The token ends where the edit puts its end, or it has no width left. -/
def Lands (e : Edit) (t : Token) : Prop :=
  match e.token t with
  | some u => u.stop = e.offset t.stop
  | none => e.offset t.start = e.offset t.stop

theorem fits_lands {e : Edit} {size : Nat} {ts : List Token} (h : e.Fits size ts) :
    ∀ t ∈ ts, Lands e t := by
  induction h with
  | nil => simp
  | keep token keeps rest ih =>
    refine List.forall_mem_cons.mpr ⟨?_, ih⟩
    rw [Lands, token]
    exact keeps.stop
  | leave token trivia ends width next rest ih =>
    refine List.forall_mem_cons.mpr ⟨?_, ih⟩
    rw [Lands, token]
    exact width

theorem stop_edited {e : Edit} {s : Nat} {xs : List Tree} (hp : Placed s xs)
    (ht : ∀ t ∈ tokensAll xs, Lands e t) :
    stopAll (e.offset s) (e.trees xs) = e.offset (stopAll s xs) := by
  induction xs using forest_induction generalizing s with
  | nil => rfl
  | token t xs ih =>
    obtain ⟨rfl, hrest⟩ := (placed_token s t xs).mp hp
    obtain ⟨hhead, htail⟩ := List.forall_mem_cons.mp ht
    have ih := ih hrest htail
    rw [Lands] at hhead
    cases htoken : e.token t with
    | none =>
      rw [htoken] at hhead
      rw [Edit.trees, Edit.tree, htoken, hhead]
      exact ih
    | some u =>
      rw [htoken] at hhead
      rw [Edit.trees, Edit.tree, htoken]
      show stopAll u.stop (e.trees xs) = _
      rw [hhead]
      exact ih
  | node k o cs xs ihc ih =>
    obtain ⟨rfl, hchildren, hrest⟩ := (placed_node s k o cs xs).mp hp
    have htokens := List.forall_mem_append.mp ht
    show stopAll (stopAll (e.offset o) (e.trees cs)) (e.trees xs) = _
    rw [ihc hchildren htokens.1]
    exact ih hrest htokens.2

theorem spans_edited {e : Edit} {s : Nat} {xs : List Tree} (hp : Placed s xs)
    (ht : ∀ t ∈ tokensAll xs, Lands e t) :
    nodeSpans (e.trees xs) = (nodeSpans xs).map fun n => (n.1, e.span n.2) := by
  induction xs using forest_induction generalizing s with
  | nil => rfl
  | token t xs ih =>
    have ih := ih ((placed_token s t xs).mp hp).2 (List.forall_mem_cons.mp ht).2
    rw [Edit.trees, Edit.tree]
    cases e.token t <;> exact ih
  | node k o cs xs ihc ih =>
    obtain ⟨rfl, hchildren, hrest⟩ := (placed_node s k o cs xs).mp hp
    have htokens := List.forall_mem_append.mp ht
    show nodeSpans (.node k (e.offset o) (e.trees cs) :: e.trees xs) = _
    rw [nodeSpans_node, nodeSpans_node, ihc hchildren htokens.1, ih hrest htokens.2,
      stop_edited hchildren htokens.1]
    simp [Edit.span]

theorem parse_edited {e : Edit} {text text' : String}
    (fits : e.Fits text.utf8ByteSize (tokenize text).1) (zero : e.offset 0 = 0)
    (tokens : (tokenize text').1 = e.row (tokenize text).1)
    (faults : (tokenize text').2 = (tokenize text).2.map e.diagnostic)
    (size : text'.utf8ByteSize = e.offset text.utf8ByteSize) :
    [(parse text').tree] = e.tree (parse text).tree ∧
      (parse text').diagnostics = (parse text).diagnostics.map e.diagnostic := by
  have hdocument : Grammar.document ⟨(tokenize text').1, text'.utf8ByteSize⟩ =
      e.output (Grammar.document ⟨(tokenize text).1, text.utf8ByteSize⟩) := by
    rw [tokens, size]
    exact @Edit.document_edited _ ⟨_, _⟩ fits
  simp only [parse, parseTokens, hdocument, faults, Edit.output, Edit.tree, zero,
    List.map_append, and_self]

theorem tiled_append {offset : Nat} {ts us : List Token} (h : Tiled offset (ts ++ us)) :
    Tiled (offset + byteSize (spelled ts)) us := by
  induction ts generalizing offset with
  | nil => exact h
  | cons t ts ih =>
    obtain ⟨rfl, -, hrest⟩ := h
    rw [spelled_cons, byteSize_append, ← Nat.add_assoc]
    exact ih hrest

theorem tiled_before {offset : Nat} {before after : List Token} {t : Token}
    (h : Tiled offset (before ++ t :: after)) : ∀ u ∈ before, u.start < t.start := by
  induction before generalizing offset with
  | nil => simp
  | cons u before ih =>
    obtain ⟨rfl, hne, hrest⟩ := h
    intro v hv
    rcases List.mem_cons.mp hv with rfl | hv
    · have hstop := tiled_starts hrest t (by simp)
      have hwidth := token_width hne
      omega
    · exact ih hrest v hv

variable (keep : Token → List Char)

def loss (t : Token) : Nat := byteSize t.text - byteSize (keep t)

/-- Bytes that are lost in front of the offset. -/
def lost (ts : List Token) (offset : Nat) : Nat :=
  ((ts.filter (·.start < offset)).map (loss keep)).sum

/-- Leaves of each token what it keeps and closes the gaps. -/
def trimming (ts : List Token) : Edit where
  token t := if keep t = [] then none else some ⟨t.kind, t.start - lost keep ts t.start, keep t⟩
  offset o := o - lost keep ts o

variable {keep} {ts before after : List Token} {t : Token}

theorem lost_append (ts us : List Token) (o : Nat) :
    lost keep (ts ++ us) o = lost keep ts o + lost keep us o := by
  simp [lost]

theorem lost_all {o : Nat} (h : ∀ u ∈ ts, u.start < o) :
    lost keep ts o = (ts.map (loss keep)).sum := by
  rw [lost, List.filter_eq_self.mpr fun u hu => decide_eq_true (h u hu)]

theorem lost_none {o : Nat} (h : ∀ u ∈ ts, o ≤ u.start) : lost keep ts o = 0 := by
  rw [lost, List.filter_eq_nil_iff.mpr fun u hu => by simpa using h u hu]
  rfl

theorem loss_le (keep : Token → List Char) (ts : List Token) :
    (ts.map (loss keep)).sum ≤ byteSize (spelled ts) := by
  induction ts with
  | nil => exact le_rfl
  | cons t ts ih =>
    have ht : loss keep t ≤ byteSize t.text := Nat.sub_le _ _
    rw [List.map_cons, List.sum_cons, spelled_cons, byteSize_append]
    omega

theorem lost_within (keep : Token → List Char) (h : Tiled 0 (before ++ t :: after)) {k : Nat}
    (hk : k ≤ byteSize t.text) :
    lost keep (before ++ t :: after) (t.start + k) =
      (before.map (loss keep)).sum + if 0 < k then loss keep t else 0 := by
  have hbefore := tiled_before h
  have hafter : ∀ u ∈ after, t.start + k ≤ u.start := by
    intro u hu
    have hstop := tiled_starts (tiled_append h).2.2 u hu
    rw [Token.stop] at hstop
    omega
  have hself : lost keep [t] (t.start + k) = if 0 < k then loss keep t else 0 := by
    by_cases hpos : 0 < k
    · rw [if_pos hpos, lost_all (by simp [hpos])]
      simp
    · rw [if_neg hpos, lost_none (by simp; omega)]
  rw [← List.singleton_append, lost_append, lost_append, hself, lost_none hafter, Nat.add_zero,
    lost_all fun u hu => (hbefore u hu).trans_le (Nat.le_add_right _ _)]

theorem trimmed_start (keep : Token → List Char) (h : Tiled 0 (before ++ t :: after)) :
    (before.map (loss keep)).sum ≤ t.start := by
  have hstart := tiled_start h
  have hle := loss_le keep before
  omega

theorem offset_inside (h : Tiled 0 ts) (ht : t ∈ ts) (hkeep : keep t = t.text) {k : Nat}
    (hk : k ≤ byteSize t.text) :
    (trimming keep ts).offset (t.start + k) = (trimming keep ts).offset t.start + k := by
  obtain ⟨before, after, rfl⟩ := List.append_of_mem ht
  have hloss : loss keep t = 0 := by rw [loss, hkeep, Nat.sub_self]
  have hle := trimmed_start keep h
  have hzero := lost_within keep h (Nat.zero_le _)
  have hsome := lost_within keep h hk
  simp only [trimming, hloss, ite_self, Nat.add_zero] at hzero hsome ⊢
  rw [hsome, hzero]
  omega

theorem offset_stop (h : Tiled 0 ts) (ht : t ∈ ts)
    (hkeep : byteSize (keep t) ≤ byteSize t.text) (hne : t.text ≠ []) :
    (trimming keep ts).offset t.stop =
      (trimming keep ts).offset t.start + byteSize (keep t) := by
  obtain ⟨before, after, rfl⟩ := List.append_of_mem ht
  have hwidth := token_width hne
  have hle := trimmed_start keep h
  have hzero := lost_within keep h (Nat.zero_le _)
  have hstop := lost_within keep h le_rfl
  simp only [Token.stop] at hwidth
  rw [if_pos (by omega), loss] at hstop
  simp only [trimming, Token.stop, Nat.add_zero, lt_irrefl, if_false] at hzero ⊢
  rw [hstop, hzero]
  omega

theorem offset_zero (ts : List Token) : (trimming keep ts).offset 0 = 0 := Nat.zero_sub _

end DiagramText.Trimming
