import DiagramText.Proofs.Construction
import DiagramText.Proofs.LetterCase

/-!
# What lookahead saw and what a path spells

Lookahead measures a path token by token and notes whether a single bare word
of it is reserved. Afterwards the node of the path is read by its dots, and a
segment is compared with the reserved words as a text. The two agree: every
segment that was measured is one piece between dots, and a row of several words
is never reserved because the blanks in it belong to no reserved word. So the
statements that lookahead takes for properties have a reserved word to be found
in them, and those that it takes for shapes have none.
-/

set_option autoImplicit false

namespace DiagramText.Classification
open Text Lexeme Scanning Lookahead Measures Segment Splitting Layout Widths Construction
  DiagramText.Tree

theorem blank_read {afterWord : Bool} {unclosed : List Nat} {c : Char} {cs : List Char}
    (h : (Lexeme.read afterWord unclosed c cs).1 = .ok .whitespace) : isBlank c = true := by
  have hspace := ((read_greedy afterWord unclosed c cs).space (by rw [h]; rfl)).1
  simp only [isSpace, Bool.and_eq_true] at hspace
  exact hspace.1

def Spaced (ts : List Token) : Prop :=
  ∀ t ∈ ts, t.kind = .whitespace → ∃ c ∈ t.text, isBlank c = true

theorem tokenize_spaced (text : String) : Spaced (tokenize text).1 := by
  intro t ht hkind
  obtain ⟨r, hread⟩ := tokenize_read ht
  obtain rfl := read_kind hread hkind (by simp)
  obtain ⟨afterWord, unclosed, c, cs, hr, -, htext⟩ := hread
  exact ⟨c, by simp [htext], blank_read hr.symm⟩

theorem reserved_unblank :
    (Keyword.reserved.all fun w => (LetterCase.uppercase w.toList).all (!isBlank ·)) = true := by
  decide +kernel

theorem keyword_unblank {word : String} (h : Keyword.isReserved word = true) :
    ∀ c ∈ word.toList, isBlank c = false := by
  obtain ⟨w, hw, hfold⟩ := List.any_eq_true.mp h
  have hraised := LetterCase.folded_raised (beq_iff_eq.mp hfold)
  have hall := List.all_eq_true.mp reserved_unblank w hw
  rw [hraised] at hall
  intro c hc
  rw [← LetterCase.upper_test (p := isBlank) (by decide)]
  simpa using List.all_eq_true.mp hall c.toUpper (List.mem_map_of_mem hc)

theorem words_kinds (ts : List Token) :
    ∀ t ∈ ts.take (moreWords ts), t.kind = .whitespace ∨ t.kind = .identifier := by
  fun_induction moreWords ts with
  | case1 blank word ts h ih =>
    exact List.forall_mem_cons.mpr ⟨.inl h.1, List.forall_mem_cons.mpr ⟨.inr h.2, ih⟩⟩
  | case2 => simp
  | case3 => simp

theorem words_ends (ts : List Token) (h : 0 < moreWords ts) :
    (∃ t ∈ ts.take (moreWords ts), t.kind = .whitespace) ∧
      ∀ t ∈ (ts.take (moreWords ts)).getLast?, t.kind = .identifier := by
  fun_induction moreWords ts with
  | case1 blank word ts hkinds ih =>
    refine ⟨⟨blank, List.mem_cons_self, hkinds.1⟩, ?_⟩
    intro t ht
    rcases Nat.eq_zero_or_pos (moreWords ts) with hnone | hmore
    · obtain rfl : word = t := by simpa [hnone] using ht
      exact hkinds.2
    · refine (ih hmore).2 t ?_
      obtain ⟨u, us, hrow⟩ : ∃ u us, ts.take (moreWords ts) = u :: us := by
        apply List.exists_cons_of_ne_nil
        intro hnil
        obtain ⟨⟨u, hu, -⟩, -⟩ := ih hmore
        simp [hnil] at hu
      simpa [List.take_succ_cons, hrow] using ht
  | case2 => simp at h
  | case3 => simp at h

theorem segment_undotted (ts : List Token) :
    ∀ t ∈ ts.take (segmentLength ts), t.kind ≠ .dot := by
  cases ts with
  | nil => simp
  | cons t ts =>
    rw [segmentLength]
    split
    · next hword =>
      refine List.forall_mem_cons.mpr ⟨by simp [hword], fun u hu => ?_⟩
      rcases words_kinds ts u hu with hk | hk <;> simp [hk]
    · split
      · next hstring => simp [hstring]
      · simp

theorem row_read {t : Token} {us : List Token} (ht : t.isTrivia = false)
    (hlast : ∀ u ∈ us.getLast?, u.isTrivia = false)
    (hblank : ∃ u ∈ us, ∃ c ∈ u.text, isBlank c = true) :
    ∃ s, ofTokens? (t :: us) = some s ∧ s.isKeyword = false := by
  obtain ⟨u, hu, c, hc, hcblank⟩ := hblank
  obtain ⟨v, vs, rfl⟩ := List.exists_cons_of_ne_nil (List.ne_nil_of_mem hu)
  obtain ⟨last, hlast?⟩ : ∃ last, (v :: vs).getLast? = some last := ⟨_, List.getLast?_cons⟩
  have htrim : trimTrivia (t :: v :: vs) = t :: v :: vs :=
    trim_solid ht (by rw [List.getLast?_cons_cons, hlast?]; rfl) (hlast last hlast?)
  refine ⟨⟨.ofList ((t :: v :: vs).flatMap (·.text)), false⟩, by rw [ofTokens?, htrim], ?_⟩
  have hmem : c ∈ (t :: v :: vs).flatMap (·.text) :=
    List.mem_flatMap.mpr ⟨u, List.mem_cons_of_mem t hu, hc⟩
  simp only [isKeyword, Bool.not_false, Bool.true_and]
  by_contra hreserved
  have hunblank := keyword_unblank (by simpa using hreserved) c (by simpa using hmem)
  simp [hcblank] at hunblank

theorem segment_read {ts : List Token} (h : 0 < segmentLength ts)
    (hs : Spaced (ts.take (segmentLength ts))) :
    ∃ s, ofTokens? (ts.take (segmentLength ts)) = some s ∧ s.isKeyword = isKeywordSegment ts := by
  cases ts with
  | nil => simp [segmentLength] at h
  | cons t ts =>
    by_cases hword : t.kind = .identifier
    · have hlength : segmentLength (t :: ts) = moreWords ts + 1 := by simp [segmentLength, hword]
      rw [isKeywordSegment, hlength, List.take_succ_cons]
      rcases Nat.eq_zero_or_pos (moreWords ts) with hnone | hmore
      · refine ⟨⟨t.spelling, false⟩, by rw [hnone, List.take_zero, word_segment hword], ?_⟩
        simp [isKeyword, hnone, hword]
      · obtain ⟨⟨blank, hmem, hblank⟩, hlast⟩ := words_ends ts hmore
        have hspaced := hs blank (by simp [hlength, hmem]) hblank
        obtain ⟨s, hread, hkeyword⟩ := row_read (t := t)
          (by simp [Token.isTrivia, hword, TokenKind.isTrivia])
          (fun u hu => by simp [Token.isTrivia, hlast u hu, TokenKind.isTrivia])
          ⟨blank, hmem, hspaced⟩
        refine ⟨s, hread, ?_⟩
        simp [hkeyword, Nat.ne_of_gt hmore]
    · have hstring : t.kind = .string := by
        by_contra hother
        simp [segmentLength, hword, hother] at h
      refine ⟨⟨.ofList (Literal.unescape t.text), true⟩, ?_, ?_⟩
      · simp [segmentLength, hstring, string_segment hstring]
      · simp [isKeyword, isKeywordSegment, hstring]

def segmentsOf (ts : List Token) : List Segment := (splitAtDots ts).filterMap ofTokens?

def dots (ts : List Token) : Nat := ts.countP (·.kind == .dot)

theorem dots_none {ts : List Token} (h : ∀ t ∈ ts, t.kind ≠ .dot) : dots ts = 0 := by
  simpa [dots, List.countP_eq_zero] using h

/-- The segments of a row, and whether one of them is reserved. -/
structure Spells (ts : List Token) (reserved : Bool) : Prop where
  count : (segmentsOf ts).length = 1 + dots ts
  word : (segmentsOf ts).any isKeyword = reserved

theorem spells_one {us : List Token} {s : Segment} (hus : ∀ t ∈ us, t.kind ≠ .dot)
    (hs : ofTokens? us = some s) : Spells us s.isKeyword := by
  have hone : segmentsOf us = [s] := by simp [segmentsOf, split_one hus, hs]
  exact ⟨by rw [hone, dots_none hus]; rfl, by simp [hone]⟩

theorem spells_joint {us before after ts : List Token} {dot : Token} {s : Segment} {reserved : Bool}
    (hus : ∀ t ∈ us, t.kind ≠ .dot) (hs : ofTokens? us = some s)
    (hbefore : ∀ t ∈ before, t.isTrivia = true) (hdot : dot.kind = .dot)
    (hafter : ∀ t ∈ after, t.isTrivia = true) (h : Spells ts reserved) :
    Spells (us ++ (before ++ dot :: after) ++ ts) (s.isKeyword || reserved) := by
  obtain ⟨piece, pieces, hsplit⟩ := split_cons ts
  have hsegments : segmentsOf (us ++ (before ++ dot :: after) ++ ts) = s :: segmentsOf ts := by
    rw [segmentsOf, split_joint hus hbefore hdot hafter hsplit, List.filterMap_cons,
      trim_segment (trim_after hbefore us), hs, List.filterMap_cons,
      trim_segment (trim_before hafter piece), ← List.filterMap_cons, ← hsplit]
    rfl
  have hdots : dots (us ++ (before ++ dot :: after) ++ ts) = dots ts + 1 := by
    have hu := dots_none hus
    have hb := dots_none fun t ht => trivia_undotted (hbefore t ht)
    have ha := dots_none fun t ht => trivia_undotted (hafter t ht)
    simp only [dots] at hu hb ha ⊢
    simp [List.countP_append, hu, hb, ha, hdot]
  refine ⟨?_, ?_⟩
  · rw [hsegments, List.length_cons, h.count, hdots, Nat.add_assoc]
  · rw [hsegments, List.any_cons, h.word]

theorem path_spells {ts : List Token} (h : 0 < segmentLength ts)
    (hs : Spaced (ts.take (path ts).length)) :
    Spells (ts.take (path ts).length) (path ts).hasKeyword := by
  fun_induction path ts with
  | case1 ts n hn hj =>
    obtain ⟨s, hread, hkeyword⟩ := segment_read hn hs
    rw [← hkeyword]
    exact spells_one (segment_undotted ts) hread
  | case2 ts n hn k hj below ih =>
    obtain ⟨-, hstarts, before, dot, after, htake, hdot, hbefore, hafter⟩ := joint_parts hj
    have hnext : 0 < segmentLength (ts.drop (n + k)) := by
      rw [List.drop_drop] at hstarts
      cases hrest : ts.drop (n + k) with
      | nil => simp [hrest] at hstarts
      | cons t us => exact segment_pos t us (by simpa [hrest] using hstarts)
    rw [List.take_add, List.take_add, htake] at hs ⊢
    obtain ⟨s, hread, hkeyword⟩ := segment_read hn fun t ht => hs t (by simp [n, ht])
    rw [← hkeyword]
    exact spells_joint (segment_undotted ts) hread hbefore hdot hafter
      (ih hnext fun t ht => hs t (by simp [below, ht]))
  | case3 ts n hn => exact absurd h hn

theorem keyword_divides {n : Tree} (h : n.pathSegments.any isKeyword = true) :
    ∃ word, n.keyword? = some word ∧ n.keywordPath.head? = some word ∧
      n.targetPath ++ n.keywordPath = n.segments := by
  obtain ⟨s, hs⟩ : ∃ s, n.pathSegments.find? isKeyword = some s := by
    rw [← Option.isSome_iff_exists, List.find?_isSome]
    simpa using h
  obtain ⟨hkeyword, before, after, hsplit, hbefore⟩ := List.find?_eq_some_iff_append.mp hs
  have hindex : n.keywordIndex? = some before.length := by
    have hnone : before.findIdx? isKeyword = none :=
      List.findIdx?_eq_none_iff.mpr (by simpa using hbefore)
    rw [keywordIndex?, hsplit, List.findIdx?_append, hnone]
    simp [List.findIdx?_cons, hkeyword]
  refine ⟨s.text, by rw [keyword?, hs]; rfl, ?_, List.take_append_drop _ _⟩
  simp [keywordPath, segments, hsplit, hindex]

theorem path_starts {ts : List Token} (h : ts.take (pathLength ts) ≠ []) :
    0 < segmentLength ts := by
  by_contra hnone
  have hlength : pathLength ts = 0 := by
    rw [pathLength, path]
    simp [hnone]
  simp [hlength] at h

section

variable {text : String} {n : Tree}

theorem node_spaced (hn : n ∈ (parse text).tree.nodes) : Spaced n.tokens := by
  obtain ⟨before, after, htokens, -⟩ := Lossless.nodes_covered text n hn
  intro t ht
  exact tokenize_spaced text t (by simp [htokens, ht])

theorem path_filled (hn : n ∈ (parse text).tree.nodes) (hk : n.kind?.any isPath = true) :
    n.tokens ≠ [] := by
  rcases List.mem_cons.mp hn with rfl | hn
  · simp [kind?, isPath] at hk
  · refine (parse_solid text n hn).filled fun herror => ?_
    simp [herror, isPath] at hk

theorem node_spells (hn : n ∈ (parse text).tree.nodes) (hk : n.kind?.any isPath = true)
    {ts : List Token} (hts : n.tokens = ts.take (pathLength ts)) :
    Spells n.tokens (path ts).hasKeyword := by
  have hfilled := path_filled hn hk
  have hspaced := node_spaced hn
  rw [hts] at hfilled hspaced ⊢
  exact path_spells (path_starts hfilled) hspaced

theorem head_spells (hn : n ∈ (parse text).tree.nodes) {kind : NodeKind} (hk : isPath kind = true)
    {s : Nat} {ts : List Token} {rest : List Tree} (h : n.elements = pathTree kind s ts :: rest) :
    n.child? kind = some (pathTree kind s ts) ∧
      (pathTree kind s ts).pathSegments.any isKeyword = (path ts).hasKeyword := by
  have hkind : (pathTree kind s ts).kind? = some kind := rfl
  have hmem := element_node hn (h ▸ List.mem_cons_self) hkind
  refine ⟨by simp [child?, h, isKind, hkind], ?_⟩
  exact (node_spells hmem (by simpa [hkind] using hk) (tokensAll_map_token _)).word

end

/-- What the accessors find in the paths of a tree. -/
structure Classified (text : String) : Prop where
  segments : ∀ n ∈ (parse text).tree.nodes, n.kind?.any isPath = true →
    n.segments.length = 1 + n.tokens.countP (·.kind == .dot)
  property : ∀ p ∈ (parse text).tree.places, p.node.kind? = some .property →
    p.parent?.any (isKind .blockDefinition) = false →
      ∃ key word, p.node.key? = some key ∧ key.keyword? = some word ∧
        key.keywordPath.head? = some word ∧ key.targetPath ++ key.keywordPath = key.segments
  shape : ∀ n ∈ (parse text).tree.nodes, n.kind? = some .shapeDefinition →
    ∃ path, n.shapePath? = some path ∧
      ∀ s ∈ path.pathSegments, s.quoted = false → Keyword.isReserved s.text = false

/-- The accessors find in every path what lookahead took its statement for. -/
theorem parse_classified (text : String) : Classified text := by
  refine ⟨fun n hn hk => ?_, fun p hp hk hparent => ?_, fun n hn hk => ?_⟩
  · obtain ⟨p, hp, rfl⟩ := Depth.node_place hn
    obtain ⟨ts, hts⟩ := (parse_admitted text p hp).path hk
    rw [Tree.segments, List.length_map]
    exact (node_spells hn hk hts).count
  · obtain ⟨s, ts, rest, helements, hreserved⟩ :=
      (parse_admitted text p hp).property hk hparent
    obtain ⟨hkey, hany⟩ := head_spells (Depth.place_node hp) rfl helements
    obtain ⟨word, hword⟩ := keyword_divides (hany.trans hreserved)
    exact ⟨_, word, hkey, hword⟩
  · obtain ⟨p, hp, rfl⟩ := Depth.node_place hn
    obtain ⟨s, ts, rest, helements, hfree⟩ := (parse_admitted text p hp).shape hk
    obtain ⟨hpath, hany⟩ := head_spells hn rfl helements
    refine ⟨_, hpath, fun segment hmem hbare => ?_⟩
    have hplain := List.any_eq_false.mp (hany.trans hfree) segment hmem
    simpa [isKeyword, hbare] using hplain

end DiagramText.Classification
