import DiagramText.Proofs.CarriageReturns
import DiagramText.Proofs.EditedReading

/-!
# Where carriage returns stand in a tree

In a readable text whose carriage returns stand in front of newlines, each of
them is in a block comment or at the end of the trivia of its line. Paths
have such trivia only around their dots, labels have none, and a value that
holds no newline has none either. So none of the texts that a reader takes
from a tree has a carriage return in it.
-/

set_option autoImplicit false

namespace DiagramText.Guards
open Text Scanning Lines Trimming CarriageReturns Lookahead Measures DiagramText.Derivation Widths
  Layout
open DiagramText.Tree Edit Segment Splitting

/-- A newline comes first. -/
def Broken (ts : List Token) : Prop := ∃ u ∈ ts.head?, u.kind = .newline ∧ '\n' ∈ u.text

def Guarded : List Token → Prop
  | [] => True
  | t :: ts =>
    ('\r' ∈ t.text → t.kind = .blockComment ∧ '\n' ∈ t.text ∨ t.isTrivia = true ∧ Broken ts) ∧
      Guarded ts

theorem newline_broken {s : Scanner} (h : s.rest.head? = some '\n') : Broken s.drain.1 := by
  obtain ⟨cs, hr⟩ := head_end h
  rw [drain_next (newline_next hr)]
  exact ⟨_, rfl, rfl, by simp⟩

theorem drain_guarded (s : Scanner) (h : Paired s.rest)
    (readable : ∀ t ∈ s.drain.1, t.kind ≠ .error)
    (blocks : ∀ t ∈ s.drain.1, t.kind = .blockString → '\n' ∉ t.text) : Guarded s.drain.1 := by
  fun_induction Scanner.drain s with
  | case1 => trivial
  | case2 s t u hnext rest ih =>
    obtain ⟨c, cs, hr, htoken, hu⟩ := next_cons hnext
    rw [hr] at h
    have hreturned := read_returned s.afterWord s.unclosed h
    obtain ⟨hreadable, hreadables⟩ := List.forall_mem_cons.mp readable
    obtain ⟨hblock, hblocks⟩ := List.forall_mem_cons.mp blocks
    have hahead : u.rest = cs.drop (Lexeme.read s.afterWord s.unclosed c cs).2 := by rw [hu]
    have hpaired : Paired u.rest := by
      rw [hahead]
      exact @paired_append (c :: cs.take (Lexeme.read s.afterWord s.unclosed c cs).2) _
        (by simpa using h)
    refine ⟨fun hmem => ?_, ih hpaired hreadables hblocks⟩
    rw [← hahead] at hreturned
    have hkind : Lexeme.kind (Lexeme.read s.afterWord s.unclosed c cs).1 = t.kind := by
      rw [htoken]
    have htext : c :: cs.take (Lexeme.read s.afterWord s.unclosed c cs).2 = t.text := by
      rw [htoken]
    rw [hkind, htext] at hreturned
    rcases hreturned hmem with herror | ⟨hcomment | hstring, hn⟩ | ⟨htrivia, hhead⟩
    · exact absurd herror hreadable
    · exact .inl ⟨hcomment, hn⟩
    · exact absurd hn (hblock hstring)
    · exact .inr ⟨htrivia, newline_broken hhead⟩

theorem guarded_append {us ts : List Token} (h : Guarded (us ++ ts)) : Guarded ts := by
  induction us with
  | nil => exact h
  | cons u us ih => exact ih h.2

theorem guarded_clean {ts : List Token} (h : Guarded ts) :
    ∀ t ∈ ts, t.isTrivia = false → '\r' ∉ t.text := by
  induction ts with
  | nil => simp
  | cons t ts ih =>
    refine List.forall_mem_cons.mpr ⟨fun htrivia hmem => ?_, ih h.2⟩
    rcases h.1 hmem with ⟨hk, -⟩ | ⟨htrue, -⟩
    · simp [Token.isTrivia, hk, TokenKind.isTrivia] at htrivia
    · simp [htrivia] at htrue

theorem strip_empty {cs : List Char} (h : strip cs = []) (hne : cs ≠ []) :
    '\r' ∈ cs ∧ '\n' ∉ cs := by
  have hall : ∀ c ∈ cs, c = '\r' := by simpa [strip] using h
  obtain ⟨c, hc⟩ := List.exists_mem_of_ne_nil _ hne
  exact ⟨hall c hc ▸ hc, fun hn => absurd (hall _ hn) (by decide)⟩

theorem guarded_fits {ts : List Token} {size offset : Nat} (hts : Tiled 0 ts) {us : List Token}
    (ahead : us <:+ ts) (hc : Covers offset us size) (h : Guarded us) :
    (returnless ts).Fits size us := by
  induction us generalizing offset with
  | nil => exact .nil
  | cons t us ih =>
    have hmem : t ∈ ts := ahead.subset List.mem_cons_self
    obtain ⟨-, hne, hcovers⟩ := covers_cons.mp hc
    have hrest := ih ((List.suffix_cons t us).trans ahead) hcovers h.2
    have hstop := @offset_stop (fun t => strip t.text) ts t hts hmem (strip_width t.text) hne
    by_cases hgone : strip t.text = []
    · obtain ⟨hreturn, hnewline⟩ := strip_empty hgone hne
      rcases h.1 hreturn with ⟨-, hn⟩ | ⟨htrivia, u, hu, hk, -⟩
      · exact absurd hn hnewline
      · obtain ⟨vs, rfl⟩ : ∃ vs, us = u :: vs := by
          cases us with
          | nil => simp at hu
          | cons v vs => exact ⟨vs, by simpa using hu⟩
        rw [hgone] at hstop
        exact .leave (token_gone hgone) htrivia (by simp [AtBreak, hk, isBreak]) hstop.symm
          (offset_covers hcovers).symm hrest
    · have hplain (htrivia : t.isTrivia = false) : strip t.text = t.text :=
        strip_clean (guarded_clean h t List.mem_cons_self htrivia)
      refine .keep (token_kept hgone) ⟨.inl rfl, rfl, hstop.symm, ?_, fun hk => ?_⟩ hrest
      · by_cases hk : t.kind = .symbol
        · rw [isComma, isComma, hplain (by rw [Token.isTrivia, hk]; rfl)]
        · simp only [isComma, beq_false_of_ne hk, Bool.false_and]
      · rw [Token.spelling, Token.spelling, hplain (by rw [Token.isTrivia, hk]; rfl)]

theorem guarded_shut {us ts : List Token} (h : Guarded (us ++ ts)) (shut : Shut us ts) :
    ∀ t ∈ us, '\r' ∈ t.text →
      ∃ u ∈ us, (u.kind = .blockComment ∨ u.kind = .newline) ∧ '\n' ∈ u.text := by
  induction us with
  | nil => simp
  | cons t us ih =>
    cases us with
    | nil =>
      refine List.forall_mem_singleton.mpr fun hmem => ?_
      rcases h.1 hmem with ⟨hk, hn⟩ | ⟨htrivia, u, hu, hk, -⟩
      · exact ⟨t, List.mem_cons_self, .inl hk, hn⟩
      · rcases shut with ⟨v, hv, hlast⟩ | hnext
        · obtain rfl : t = v := by simpa using hv
          simp [htrivia] at hlast
        · exact absurd hk (hnext u hu)
    | cons u us =>
      have hshut : Shut (u :: us) ts := by
        rw [Shut, List.getLast?_cons_cons] at shut
        exact shut
      refine List.forall_mem_cons.mpr ⟨fun hmem => ?_, fun v hv hmem => ?_⟩
      · rcases h.1 hmem with ⟨hk, hn⟩ | ⟨-, v, hv, hk, hn⟩
        · exact ⟨t, List.mem_cons_self, .inl hk, hn⟩
        · obtain rfl : u = v := by simpa using hv
          exact ⟨u, by simp, .inr hk, hn⟩
      · obtain ⟨w, hw, hnewline⟩ := ih h.2 hshut v hv hmem
        exact ⟨w, List.mem_cons_of_mem t hw, hnewline⟩

theorem words_clean {ts rest : List Token} (h : Guarded (ts.take (moreWords ts) ++ rest)) :
    ∀ t ∈ ts.take (moreWords ts), '\r' ∉ t.text ∧ t.kind ≠ .dot := by
  fun_induction moreWords ts with
  | case1 blank word ts hkinds ih =>
    rw [List.take_succ_cons, List.take_succ_cons] at h ⊢
    obtain ⟨hblank, hwords⟩ := h
    have hword := guarded_clean hwords word List.mem_cons_self
      (by rw [Token.isTrivia, hkinds.2]; rfl)
    -- the blank stands in front of a word and not of a newline
    have hclean : '\r' ∉ blank.text := by
      intro hmem
      rcases hblank hmem with ⟨hk, -⟩ | ⟨-, u, hu, hk, -⟩
      · simp [hkinds.1] at hk
      · obtain rfl : word = u := by simpa using hu
        simp [hkinds.2] at hk
    refine List.forall_mem_cons.mpr ⟨⟨hclean, by simp [hkinds.1]⟩, ?_⟩
    exact List.forall_mem_cons.mpr ⟨⟨hword, by simp [hkinds.2]⟩, ih hwords.2⟩
  | case2 => simp
  | case3 => simp

theorem segment_clean {ts rest : List Token} (h : Guarded (ts.take (segmentLength ts) ++ rest)) :
    ∀ t ∈ ts.take (segmentLength ts), '\r' ∉ t.text ∧ t.kind ≠ .dot := by
  cases ts with
  | nil => simp [segmentLength]
  | cons t ts =>
    rw [segmentLength] at h ⊢
    split
    · next hk =>
      rw [if_pos hk, List.take_succ_cons] at h
      have hclean := guarded_clean h t List.mem_cons_self (by rw [Token.isTrivia, hk]; rfl)
      rw [List.take_succ_cons]
      exact List.forall_mem_cons.mpr ⟨⟨hclean, by simp [hk]⟩, words_clean h.2⟩
    · next hi =>
      rw [if_neg hi] at h
      split
      · next hk =>
        rw [if_pos hk] at h
        have hclean := guarded_clean h t (by simp) (by rw [Token.isTrivia, hk]; rfl)
        simpa using ⟨hclean, by simp [hk]⟩
      · simp

/-- The segments of a path hold no carriage return. -/
def Clear (us : List Token) : Prop :=
  ∀ piece ∈ splitAtDots us, ∀ t ∈ trimTrivia piece, '\r' ∉ t.text

theorem segment_clear {us : List Token} (h : ∀ t ∈ us, '\r' ∉ t.text ∧ t.kind ≠ .dot) :
    Clear us := by
  rw [Clear, split_one fun t ht => (h t ht).2]
  refine List.forall_mem_singleton.mpr fun t ht => ?_
  exact (h t (trim_mem ht)).1

theorem joint_clear {us before after ts : List Token} {dot : Token}
    (hus : ∀ t ∈ us, '\r' ∉ t.text ∧ t.kind ≠ .dot) (hbefore : ∀ t ∈ before, t.isTrivia = true)
    (hdot : dot.kind = .dot) (hafter : ∀ t ∈ after, t.isTrivia = true) (h : Clear ts) :
    Clear (us ++ (before ++ dot :: after) ++ ts) := by
  obtain ⟨piece, pieces, hs⟩ := split_cons ts
  rw [Clear, hs] at h
  obtain ⟨hpiece, hpieces⟩ := List.forall_mem_cons.mp h
  rw [Clear, split_joint (fun t ht => (hus t ht).2) hbefore hdot hafter hs]
  refine List.forall_mem_cons.mpr ⟨?_, List.forall_mem_cons.mpr ⟨?_, hpieces⟩⟩
  · rw [trim_after hbefore]
    exact fun t ht => (hus t (trim_mem ht)).1
  · rw [trim_before hafter]
    exact hpiece

theorem path_clear {ts rest : List Token} (h : Guarded (ts.take (path ts).length ++ rest)) :
    Clear (ts.take (path ts).length) := by
  fun_induction path ts with
  | case1 ts n hn hj => exact segment_clear (segment_clean h)
  | case2 ts n hn k hj below ih =>
    obtain ⟨-, -, before, dot, after, htake, hdot, hbefore, hafter⟩ := joint_parts hj
    rw [List.take_add, List.take_add, htake] at h ⊢
    have hclean := @segment_clean ts ((before ++ dot :: after) ++
      (ts.drop (n + k)).take below.length ++ rest) (by simpa using h)
    rw [List.append_assoc] at h
    exact joint_clear hclean hbefore hdot hafter (ih (guarded_append h))
  | case3 ts n hn => exact segment_clear (by simp)

/-- No text that is read from the node has a carriage return in it. -/
structure Neat (n : Tree) : Prop where
  path : n.kind?.any isPath = true → Clear n.tokens
  label : n.kind? = some .labelDefinition → ∀ t ∈ n.tokens, '\r' ∉ t.text
  value : n.kind? = some .attributeValue → '\n' ∉ n.chars → ∀ t ∈ n.tokens, '\r' ∉ t.text

def bearsText (k : NodeKind) : Bool :=
  isPath k || k == .labelDefinition || k == .attributeValue

theorem neat_other {k : NodeKind} {s : Nat} {xs : List Tree} (hk : bearsText k = false)
    (h : ∀ n ∈ nodesAll xs, Neat n) : ∀ n ∈ nodesAll [.node k s xs], Neat n := by
  simp only [bearsText, Bool.or_eq_false_iff, beq_eq_false_iff_ne] at hk
  exact forall_nodes_node.mpr ⟨⟨fun hp => by simp [kind?, hk.1.1] at hp,
    fun hl => by simp [kind?, hk.1.2] at hl, fun hv => by simp [kind?, hk.2] at hv⟩, h⟩

theorem neat_append {xs ys : List Tree} (hx : ∀ n ∈ nodesAll xs, Neat n)
    (hy : ∀ n ∈ nodesAll ys, Neat n) : ∀ n ∈ nodesAll (xs ++ ys), Neat n :=
  forall_nodes_append.mpr ⟨hx, hy⟩

theorem neat_tokens (us : List Token) : ∀ n ∈ nodesAll (us.map .token), Neat n := by simp

theorem neat_value {s : Nat} {xs : List Tree} {ts : List Token}
    (hg : Guarded (tokensAll xs ++ ts)) (shut : Shut (tokensAll xs) ts)
    (h : ∀ n ∈ nodesAll xs, Neat n) : ∀ n ∈ nodesAll [.node .attributeValue s xs], Neat n := by
  refine forall_nodes_node.mpr ⟨⟨by simp [kind?, isPath], by simp [kind?], ?_⟩, h⟩
  intro _ hchars t ht hmem
  obtain ⟨u, hu, -, hn⟩ := guarded_shut hg shut t ht hmem
  exact hchars (List.mem_flatMap.mpr ⟨u, hu, hn⟩)

theorem neat_leaf {k : NodeKind} {t : Token} {us ts : List Token} (leaf : Leaf k (t :: us))
    (trimmed : Trimmed k (t :: us) ts) (hg : Guarded (t :: us ++ ts)) :
    ∀ n ∈ nodesAll [.node k t.start ((t :: us).map .token)], Neat n := by
  obtain ⟨hshut, hstops⟩ := trimmed
  have htokens : tokensAll ((t :: us).map .token) = t :: us := tokensAll_map_token _
  rcases leaf with ⟨hk, -, hmeasured⟩ | ⟨rfl, -⟩
  · refine forall_nodes_node.mpr ⟨⟨fun hp => ?_, fun hl => ?_, fun hv => ?_⟩, neat_tokens _⟩
    · obtain ⟨vs, hvs⟩ := hmeasured (by rintro rfl; simp [kind?, isPath] at hp)
      rw [tokens, htokens, hvs]
      exact path_clear (hvs ▸ hg)
    · obtain rfl : k = .labelDefinition := by simpa [kind?] using hl
      rw [tokens, htokens]
      intro v hv hmem
      obtain ⟨w, hw, hkind, -⟩ := guarded_shut hg (hshut (.inl rfl)) v hv hmem
      have hstop := hstops rfl w hw
      rcases hkind with hkind | hkind <;> simp [stopsText, hkind] at hstop
    · obtain rfl : k = .attributeValue := by simpa [kind?] using hv
      simp at hk
  · exact neat_value (by rwa [htokens]) (by rw [htokens]; exact hshut (.inr rfl)) (neat_tokens _)

theorem body_text {k : NodeKind} {scope : Grammar.Scope}
    (h : Production.bodyScope? k = some scope) :
    bearsText k = false := by
  cases k <;> simp [Production.bodyScope?] at h <;> rfl

theorem derives_neat {size : Nat} {ts us : List Token} {xs : List Tree} {ds : List Diagnostic}
    (h : Derives size ts xs ds us) (hg : Guarded ts) : ∀ n ∈ nodesAll xs, Neat n := by
  induction h with
  | nil | token => simp [nodesAll, nodes]
  | append first _ ih ih' =>
    exact neat_append (ih hg) (ih' (guarded_append (derives_tokens first ▸ hg)))
  | leaf _ t us ts leaf trimmed => exact neat_leaf leaf trimmed hg
  | silent t us ts | rejected t us ts => exact neat_other rfl (neat_tokens (t :: us))
  | missing ts => exact neat_other rfl (neat_tokens [])
  | deepValue t us ts d _ _ _ _ shut =>
    have htokens : tokensAll [.node .error t.start ((t :: us).map .token)] = t :: us := by
      rw [tokensAll, tokens, tokensAll_map_token, tokensAll, List.append_nil]
    exact neat_value (by rwa [htokens]) (by rwa [htokens]) (neat_other rfl (neat_tokens _))
  | @arrayValue ts us x ds array _ shut ih =>
    have htokens : tokensAll [x] = x.tokens := List.append_nil _
    exact neat_value (derives_tokens array ▸ hg) (by rwa [htokens]) (ih hg)
  | closedArray _ _ _ _ ih => exact neat_other rfl (neat_append (ih hg.2) (neat_tokens [_]))
  | openArray _ _ _ ih => exact neat_other rfl (ih hg.2)
  | closedBlock body _ _ _ _ ih =>
    exact neat_other (body_text body) (neat_append (ih hg.2) (neat_tokens [_]))
  | openBlock body _ _ _ ih => exact neat_other (body_text body) (ih hg.2)
  | definition kinds _ _ ih =>
    rcases kinds with rfl | rfl <;> exact neat_other rfl (ih hg)
  | connection first chain _ _ _ _ _ _ _ ih ih' ih'' =>
    have hchain := guarded_append (derives_tokens first ▸ hg)
    have hlast := guarded_append (derives_tokens chain ▸ hchain)
    exact neat_other rfl (neat_append (ih hg) (neat_append (ih' hchain) (ih'' hlast)))

theorem outermost_neat {size : Nat} {ts us : List Token} {xs : List Tree}
    {ds : List Diagnostic} (h : Outermost size ts xs ds us) (hg : Guarded ts) :
    ∀ n ∈ nodesAll xs, Neat n := by
  induction h with
  | piece derives => exact derives_neat derives hg
  | append first _ ih ih' =>
    exact neat_append (ih hg) (ih' (guarded_append (outermost_tokens first ▸ hg)))
  | stray t => exact neat_other rfl (neat_tokens [t])
  | anonymous _ block => exact derives_neat block hg

theorem parse_neat {text : String} (h : Guarded (tokenize text).1) :
    ∀ n ∈ (parse text).tree.nodes, Neat n := by
  obtain ⟨-, hd, -⟩ := Nesting.document_derives (tokenize text).1 text.utf8ByteSize
  have hrow := neat_other (k := .document) (s := 0) rfl (outermost_neat hd h)
  rwa [nodesAll, nodesAll, List.append_nil] at hrow

end DiagramText.Guards
