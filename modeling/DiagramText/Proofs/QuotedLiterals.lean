import DiagramText.Proofs.Lines

/-!
# Quoted literals

The body of a quoted literal is a row of glyphs: characters that stand for
themselves, and backslashes, each with the character after it. The scanner ends
a literal at the first quote that no glyph covers, reading replaces the glyphs
one by one, and a report is made for each backslash that names no character. So
every text can be written between quotes of either kind and is read back as it
was.
-/

set_option autoImplicit false

namespace DiagramText.QuotedLiterals
open Text Lexeme Scanning Lines Literal

inductive Glyph where
  | plain (c : Char)
  | pair (c : Char)
  deriving DecidableEq, Repr

/-- The characters that name a character behind a backslash, each with the one it names. -/
def namedEscapes : List (Char × Char) :=
  [('n', '\n'), ('r', '\r'), ('t', '\t'), ('0', '\x00'), ('\\', '\\'), ('"', '"'), ('\'', '\''),
    ('/', '/'), (' ', ' '), ('#', '#')]

namespace Glyph

def spelling : Glyph → List Char
  | plain c => [c]
  | pair c => ['\\', c]

def isPair : Glyph → Bool
  | plain _ => false
  | pair _ => true

def isUnknown : Glyph → Bool
  | plain _ => false
  | pair c => (namedEscapes.lookup c).isNone

/-- What the glyph is read as: one character, unless it is an unknown pair. -/
def reading : Glyph → List Char
  | plain c => [c]
  | pair c =>
    match namedEscapes.lookup c with
    | some d => [d]
    | none => ['\\', c]

def Quotable (q : Char) : Glyph → Prop
  | plain c => c ≠ q ∧ c ≠ '\\' ∧ c ≠ '\n'
  | pair c => c ≠ '\n'

end Glyph

def spell (gs : List Glyph) : List Char := gs.flatMap Glyph.spelling

/-- The glyphs of a body, from left to right: a backslash takes the character after it along. -/
def glyphs : List Char → List Glyph
  | '\\' :: c :: cs => .pair c :: glyphs cs
  | c :: cs => .plain c :: glyphs cs
  | [] => []

/-- The glyphs with their spans, from the offset on. -/
def placed (o : Nat) : List Glyph → List (Span × Glyph)
  | [] => []
  | g :: gs => (⟨o, o + byteSize g.spelling⟩, g) :: placed (o + byteSize g.spelling) gs

@[simp]
theorem spell_nil : spell [] = [] := rfl

@[simp]
theorem spell_plain (c : Char) (gs : List Glyph) : spell (.plain c :: gs) = c :: spell gs := rfl

@[simp]
theorem spell_pair (c : Char) (gs : List Glyph) : spell (.pair c :: gs) = '\\' :: c :: spell gs :=
  rfl

theorem escaped_names (c : Char) : escaped? c = namedEscapes.lookup c := by
  unfold escaped? namedEscapes
  by_cases h : c ∈ namedEscapes.map (·.1)
  · simp only [namedEscapes, List.map_cons, List.map_nil, List.mem_cons, List.not_mem_nil,
      or_false] at h
    rcases h with rfl | rfl | rfl | rfl | rfl | rfl | rfl | rfl | rfl | rfl <;> rfl
  · simp only [namedEscapes, List.map_cons, List.map_nil, List.mem_cons, List.not_mem_nil, or_false,
      not_or] at h
    simp [List.lookup_cons, h, beq_false_of_ne]

theorem valid_names (c : Char) : validEscapes.contains c = (namedEscapes.lookup c).isSome := by
  have hperm : validEscapes.Perm (namedEscapes.map (·.1)) := by decide
  rw [Bool.eq_iff_iff, List.contains_iff_mem, List.lookup_isSome_iff, hperm.mem_iff, List.mem_map]
  simp only [beq_iff_eq, @eq_comm _ c]

theorem placed_known {gs : List Glyph} (h : ∀ g ∈ gs, g.isUnknown = false) (o : Nat) :
    (placed o gs).filter (·.2.isUnknown) = [] := by
  induction gs generalizing o with
  | nil => rfl
  | cons g gs ih =>
    obtain ⟨hg, hgs⟩ := List.forall_mem_cons.mp h
    simp [placed, hg, ih hgs]

theorem glyphs_plain {c : Char} (hc : c ≠ '\\') (cs : List Char) :
    glyphs (c :: cs) = .plain c :: glyphs cs := by
  rw [glyphs]
  intro d ds hd
  exact absurd hd hc

theorem cook_plain {c : Char} (hc : c ≠ '\\') (cs : List Char) : cook (c :: cs) = c :: cook cs := by
  rw [cook]
  intro d ds hd
  exact absurd hd hc

theorem unknown_plain {c : Char} (hc : c ≠ '\\') (o : Nat) (cs : List Char) :
    unknownEscapes o (c :: cs) = unknownEscapes (o + c.utf8Size) cs := by
  rw [unknownEscapes]
  intro d ds hd
  exact absurd hd hc

theorem cook_pair (c : Char) (cs : List Char) :
    cook ('\\' :: c :: cs) = (Glyph.pair c).reading ++ cook cs := by
  rw [cook, escaped_names, Glyph.reading]
  cases namedEscapes.lookup c <;> rfl

/-- The report is an unknown escape and labels just the glyph. -/
def Marks (g : Span × Glyph) (d : Diagnostic) : Prop :=
  d.code = some .invalidEscape ∧ d.labels = [⟨g.1, Code.invalidEscape.description, true⟩]

section
variable {q : Char} {gs : List Glyph}

theorem glyphs_spell (h : ∀ g ∈ gs, g.Quotable q) : glyphs (spell gs) = gs := by
  induction gs with
  | nil => rfl
  | cons g gs ih =>
    obtain ⟨hg, hgs⟩ := List.forall_mem_cons.mp h
    cases g with
    | plain c => rw [spell_plain, glyphs_plain hg.2.1, ih hgs]
    | pair c => exact congrArg (Glyph.pair c :: ·) (ih hgs)

theorem spell_closes (h : ∀ g ∈ gs, g.Quotable q) (hq : q ≠ '\\') (rest : List Char) :
    closingQuote? q (spell gs ++ q :: rest) = some ((spell gs).length + 1) := by
  induction gs with
  | nil => rw [spell_nil, List.nil_append, quote_step hq, if_pos rfl]; rfl
  | cons g gs ih =>
    obtain ⟨hg, hgs⟩ := List.forall_mem_cons.mp h
    cases g with
    | plain c =>
      obtain ⟨hcq, hslash, hnewline⟩ := hg
      rw [spell_plain, List.cons_append, quote_step hslash, if_neg hcq, if_neg hnewline, ih hgs]
      rfl
    | pair c =>
      have hnewline : c ≠ '\n' := hg
      simp [closingQuote?, hnewline, ih hgs]

theorem closed_spell {cs : List Char} {n : Nat} (h : closingQuote? q cs = some n) :
    ∃ gs : List Glyph, (∀ g ∈ gs, g.Quotable q) ∧ cs.take n = spell gs ++ [q] := by
  fun_induction closingQuote? q cs generalizing n with
  | case1 => simp at h
  | case2 c cs hc ih =>
    obtain ⟨m, hm, rfl⟩ := Option.map_eq_some_iff.mp h
    obtain ⟨gs, hgs, htake⟩ := ih hm
    exact ⟨.pair c :: gs, List.forall_mem_cons.mpr ⟨hc, hgs⟩, by simp [htake]⟩
  | case3 cs hne =>
    obtain rfl : 1 = n := by simpa using h
    exact ⟨[], by simp, rfl⟩
  | case4 => simp at h
  | case5 c cs hne hcq hn ih =>
    obtain ⟨m, hm, rfl⟩ := Option.map_eq_some_iff.mp h
    obtain ⟨gs, hgs, htake⟩ := ih hm
    obtain ⟨hnewline, hslash⟩ := not_or.mp hn
    exact ⟨.plain c :: gs, List.forall_mem_cons.mpr ⟨⟨hcq, hslash, hnewline⟩, hgs⟩,
      by simp [htake]⟩
  | case6 => simp at h

theorem cook_spell (h : ∀ g ∈ gs, g.Quotable q) : cook (spell gs) = gs.flatMap Glyph.reading := by
  induction gs with
  | nil => rfl
  | cons g gs ih =>
    obtain ⟨hg, hgs⟩ := List.forall_mem_cons.mp h
    rw [List.flatMap_cons, ← ih hgs]
    cases g with
    | plain c => exact cook_plain hg.2.1 _
    | pair c => exact cook_pair c _

theorem unescape_spell (h : ∀ g ∈ gs, g.Quotable q) (hq : isQuote q = true) :
    unescape (q :: (spell gs ++ [q])) = gs.flatMap Glyph.reading := by
  rw [unescape, stripQuotes, if_pos hq]
  simp only [List.getLast?_append, List.getLast?_singleton, Option.some_or, if_true,
    List.dropLast_concat]
  exact cook_spell h

theorem unknown_marked (h : ∀ g ∈ gs, g.Quotable q) (hq : q ≠ '\\') (o : Nat) :
    List.Forall₂ Marks ((placed o gs).filter (·.2.isUnknown))
      ((unknownEscapes o (spell gs ++ [q])).map fun e => escapeDiagnostic e.1 e.2) := by
  induction gs generalizing o with
  | nil =>
    rw [spell_nil, List.nil_append, unknown_plain hq]
    exact .nil
  | cons g gs ih =>
    obtain ⟨hg, hgs⟩ := List.forall_mem_cons.mp h
    have hrest := ih hgs (o + byteSize g.spelling)
    cases g with
    | plain c =>
      rw [spell_plain, List.cons_append, unknown_plain hg.2.1]
      exact hrest
    | pair c =>
      have hwidth : o + byteSize (Glyph.pair c).spelling = o + 1 + c.utf8Size := by
        simp [Glyph.spelling, Nat.add_assoc]
        rfl
      rw [hwidth] at hrest
      rw [spell_pair, List.cons_append, List.cons_append, unknownEscapes, placed, hwidth,
        valid_names]
      cases hname : namedEscapes.lookup c with
      | some d =>
        have hknown : (Glyph.pair c).isUnknown = false := by rw [Glyph.isUnknown, hname]; rfl
        simpa [hknown] using hrest
      | none =>
        have hunknown : (Glyph.pair c).isUnknown = true := by rw [Glyph.isUnknown, hname]; rfl
        simp only [List.filter_cons, hunknown, if_true, Option.isSome_none, Bool.false_eq_true,
          if_false, List.map_cons]
        exact .cons ⟨rfl, rfl⟩ hrest

end

theorem read_string {afterWord : Bool} {unclosed : List Nat} {c : Char} {cs : List Char}
    (h : (Lexeme.read afterWord unclosed c cs).1 = .ok .string) :
    isQuote c = true ∧ closingQuote? c cs = some (Lexeme.read afterWord unclosed c cs).2 := by
  have hplain : (readPlain c cs).1 ≠ .ok .string := fun h => plain_kind h rfl
  unfold Lexeme.read readString readComment readPipes at h ⊢
  grind [isQuote]

theorem quote_plain {q : Char} (h : isQuote q = true) : q ≠ '\\' ∧ q ≠ '\n' := by
  constructor <;> rintro rfl <;> simp [isQuote] at h

section
variable {q : Char} {gs : List Glyph}

theorem spell_single (h : ∀ g ∈ gs, g.Quotable '"') {rest : List Char}
    (hrest : rest.head? ≠ some '"') :
    ['"', '"'].isPrefixOf (spell gs ++ '"' :: rest) = false := by
  cases gs with
  | nil =>
    cases rest with
    | nil => rfl
    | cons c rest =>
      have hc : c ≠ '"' := by simpa using hrest
      simp [List.isPrefixOf, hc.symm]
  | cons g gs =>
    cases g with
    | plain c =>
      have hc : c ≠ '"' := (h _ List.mem_cons_self).1
      simp [List.isPrefixOf, hc.symm]
    | pair c => simp [List.isPrefixOf]

theorem spell_read (h : ∀ g ∈ gs, g.Quotable q) (hq : isQuote q = true) {rest : List Char}
    (hrest : rest.head? ≠ some q) (unclosed : List Nat) :
    Lexeme.read false unclosed q (spell gs ++ q :: rest) =
      (.ok .string, (spell gs).length + 1) := by
  have hcloses := spell_closes h (quote_plain hq).1 rest
  simp only [isQuote, Bool.or_eq_true, beq_iff_eq] at hq
  rcases hq with rfl | rfl
  · simp [Lexeme.read, spell_single h hrest, readString, hcloses]
  · simp [Lexeme.read, readString, hcloses]

theorem spell_marked (h : ∀ g ∈ gs, g.Quotable q) (hq : isQuote q = true) {t : Token}
    (ht : t.text = q :: (spell gs ++ [q])) :
    List.Forall₂ Marks ((placed (t.start + 1) gs).filter (·.2.isUnknown))
      (Lexeme.diagnostics t (.ok .string)) := by
  have hwidth : q.utf8Size = 1 := by
    simp only [isQuote, Bool.or_eq_true, beq_iff_eq] at hq
    rcases hq with rfl | rfl <;> rfl
  have hslash := (quote_plain hq).1
  rw [Lexeme.diagnostics, ht, unknown_plain hslash, hwidth]
  exact unknown_marked h hslash (t.start + 1)

end

def glyph (q c : Char) : Glyph :=
  if c = '\\' ∨ c = q then .pair c else if c = '\n' then .pair 'n' else .plain c

section
variable {q : Char} (hq : isQuote q = true) (text : List Char)

theorem write_spell : write q text = q :: (spell (text.map (glyph q)) ++ [q]) := by
  have hchar : writeChar q = fun c => (glyph q c).spelling := by
    funext c
    unfold writeChar glyph
    split_ifs <;> simp_all [Glyph.spelling]
  rw [write, hchar, spell, List.flatMap_map, List.cons_append]

include hq

theorem glyph_written (c : Char) :
    (glyph q c).Quotable q ∧ (glyph q c).isUnknown = false ∧ (glyph q c).reading = [c] := by
  simp only [isQuote, Bool.or_eq_true, beq_iff_eq] at hq
  unfold glyph
  split_ifs with hspecial hnewline
  · rcases hspecial with rfl | rfl
    · exact ⟨by simp [Glyph.Quotable], rfl, rfl⟩
    · rcases hq with rfl | rfl <;> exact ⟨by simp [Glyph.Quotable], rfl, rfl⟩
  · subst hnewline
    exact ⟨by simp [Glyph.Quotable], rfl, rfl⟩
  · obtain ⟨hslash, hquote⟩ := not_or.mp hspecial
    exact ⟨⟨hquote, hslash, hnewline⟩, rfl, rfl⟩

theorem glyphs_fit : ∀ g ∈ text.map (glyph q), g.Quotable q := by
  intro g hg
  obtain ⟨c, -, rfl⟩ := List.mem_map.mp hg
  exact (glyph_written hq c).1

theorem glyphs_known : ∀ g ∈ text.map (glyph q), g.isUnknown = false := by
  intro g hg
  obtain ⟨c, -, rfl⟩ := List.mem_map.mp hg
  exact (glyph_written hq c).2.1

theorem unescape_write : unescape (write q text) = text := by
  have hreading : ∀ c, (glyph q c).reading = [c] := fun c => (glyph_written hq c).2.2
  rw [write_spell, unescape_spell (glyphs_fit hq text) hq, List.flatMap_map]
  simp [hreading]

theorem write_known (o : Nat) :
    Lexeme.diagnostics ⟨.string, o, write q text⟩ (.ok .string) = [] := by
  have hmarked := spell_marked (t := ⟨.string, o, write q text⟩) (glyphs_fit hq text) hq
    (write_spell text)
  rw [placed_known (glyphs_known hq text)] at hmarked
  cases hlist : diagnostics ⟨.string, o, write q text⟩ (.ok .string) with
  | nil => rfl
  | cons d ds =>
    rw [hlist] at hmarked
    nomatch hmarked

theorem write_read {rest : List Char} (hrest : rest.head? ≠ some q) (unclosed : List Nat) :
    ∃ body, write q text = q :: (body ++ [q]) ∧
      Lexeme.read false unclosed q (body ++ q :: rest) = (.ok .string, body.length + 1) :=
  ⟨_, write_spell text, spell_read (glyphs_fit hq text) hq hrest unclosed⟩

theorem next_write {s : Scanner} (hword : s.afterWord = false) (h : s.rest = write q text) :
    ∃ u, s.next? = some (⟨.string, s.offset, write q text⟩, u) ∧ u.rest = [] ∧
      u.diagnostics = s.diagnostics := by
  have hknown := write_known hq text s.offset
  obtain ⟨body, hbody, hread⟩ := write_read hq text (show ([] : List Char).head? ≠ some q by simp)
    s.unclosed
  rw [hbody] at h hknown ⊢
  have hlength : (body ++ [q]).length ≤ body.length + 1 := by simp
  simp [Scanner.next?, h, hword, hread, Lexeme.kind, List.take_of_length_le hlength, hknown]

end

/-- Every text is writable between quotes of either kind: the literal is scanned as one string
without a fault, and is read as the text. -/
theorem tokenize_write {q : Char} (hq : isQuote q = true) (text : String) :
    let literal := String.ofList (write q text.toList)
    ∃ t : Token, tokenize literal = ([t], []) ∧ t.kind = .string ∧
      t.span = ⟨0, literal.utf8ByteSize⟩ ∧ t.text = literal.toList ∧
      String.ofList (unescape literal.toList) = text := by
  intro literal
  have hchars : literal.toList = write q text.toList := String.toList_ofList
  obtain ⟨u, hnext, hrest, hclean⟩ := next_write hq text.toList (s := .ofText literal) rfl hchars
  refine ⟨⟨.string, 0, write q text.toList⟩, ?_, rfl, ?_, hchars.symm, ?_⟩
  · rw [tokenize, drain_next hnext, drain_end (next_none.mpr hrest), hclean]
    rfl
  · rw [← byteSize_toList, hchars]
    exact congrArg (Span.mk 0) (Nat.zero_add _)
  · rw [hchars, unescape_write hq, String.ofList_toList]

theorem tokenize_write_mixed :
    isQuote '\'' = true ∧
      ∃ t : Token, tokenize "'\\'\\'\"\"\"\\\\q\\n\\\\'" = ([t], []) ∧ t.kind = .string ∧
        t.span = ⟨0, 16⟩ ∧ t.text = "'\\'\\'\"\"\"\\\\q\\n\\\\'".toList ∧
        String.ofList (unescape t.text) = "''\"\"\"\\q\n\\" := by
  obtain ⟨t, ht, hkind, hspan, htext, hread⟩ :=
    tokenize_write (q := '\'') rfl "''\"\"\"\\q\n\\"
  exact ⟨rfl, t, ht, hkind, hspan, htext, htext ▸ hread⟩

end DiagramText.QuotedLiterals
