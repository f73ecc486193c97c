import DiagramText.Proofs.Faults
import DiagramText.Proofs.QuotedLiterals

/-!
# Reported escapes

The scanner reports the unknown escapes of a string from the raw text, and
reading decodes them from what stands between the quotes, with a table of its
own. Both see the same pairs: the reports inside a string stand for the pairs
that reading keeps as they are written, one by one and in their order, and
every other pair becomes one character.
-/

set_option autoImplicit false

namespace DiagramText.Escapes
open Text Lexeme Scanning Literal QuotedLiterals

def inner (t : Token) : List Char := t.text.tail.dropLast

def unknownPairs (t : Token) : List (Span × Glyph) :=
  (placed (t.start + 1) (glyphs (inner t))).filter (·.2.isUnknown)

def isEscape (d : Diagnostic) : Bool := d.code == some .invalidEscape

def isWithin (s : Span) (d : Diagnostic) : Bool :=
  d.span?.any fun u => s.start ≤ u.start && u.stop ≤ s.stop

def reports (text : String) (t : Token) : List Diagnostic :=
  (tokenize text).2.filter fun d => isEscape d && isWithin t.span d

/-- What is reported about the escapes of a string, and what they are read as. -/
structure Escaped (text : String) (t : Token) : Prop where
  quoted : ∃ q, isQuote q = true ∧ t.text = q :: (inner t ++ [q])
  paired : spell (glyphs (inner t)) = inner t ∧ .plain '\\' ∉ glyphs (inner t)
  read : unescape t.text = (glyphs (inner t)).flatMap Glyph.reading
  kept : ∀ g ∈ glyphs (inner t), g.isPair = true →
    if g.isUnknown then g.reading = g.spelling else g.reading.length = 1
  reported : List.Forall₂ Marks (unknownPairs t) (reports text t)
  count : ((unescape t.text).length : Int) =
    t.text.length - 2 - ((glyphs (inner t)).countP Glyph.isPair - (reports text t).length)

theorem spell_glyphs (cs : List Char) : spell (glyphs cs) = cs := by
  fun_induction glyphs cs with
  | case1 c cs ih => rw [spell_pair, ih]
  | case2 c cs hne ih => rw [spell_plain, ih]
  | case3 => rfl

theorem spelling_pos (g : Glyph) : 0 < byteSize g.spelling := by
  cases g with
  | plain c => simpa [Glyph.spelling] using c.utf8Size_pos
  | pair c =>
    have hslash : '\\'.utf8Size = 1 := rfl
    simp [Glyph.spelling, hslash]

theorem placed_bounds {o : Nat} {gs : List Glyph} {p : Span × Glyph} (h : p ∈ placed o gs) :
    o ≤ p.1.start ∧ p.1.start < p.1.stop ∧ p.1.stop ≤ o + byteSize (spell gs) := by
  induction gs generalizing o with
  | nil => simp [placed] at h
  | cons g gs ih =>
    have hsize : byteSize (spell (g :: gs)) = byteSize g.spelling + byteSize (spell gs) := by
      rw [spell, List.flatMap_cons, byteSize_append, spell]
    have hpos := spelling_pos g
    rcases List.mem_cons.mp h with rfl | h
    · simp only
      omega
    · obtain ⟨hlo, hne, hhi⟩ := ih h
      omega

theorem placed_count (o : Nat) (gs : List Glyph) (p : Glyph → Bool) :
    ((placed o gs).filter (p ·.2)).length = gs.countP p := by
  induction gs generalizing o with
  | nil => rfl
  | cons g gs ih =>
    rw [placed, List.filter_cons, List.countP_cons, ← ih (o + byteSize g.spelling)]
    split <;> simp_all

theorem reading_kept {g : Glyph} (h : g.isPair = true) :
    if g.isUnknown then g.reading = g.spelling else g.reading.length = 1 := by
  cases g with
  | plain c => simp [Glyph.isPair] at h
  | pair c =>
    cases hname : namedEscapes.lookup c <;>
      simp [Glyph.isUnknown, Glyph.reading, hname, Glyph.spelling]

theorem reading_length (gs : List Glyph) :
    (gs.flatMap Glyph.reading).length + gs.countP Glyph.isPair =
      (spell gs).length + gs.countP Glyph.isUnknown := by
  induction gs with
  | nil => rfl
  | cons g gs ih =>
    have hone : g.reading.length + (if g.isPair then 1 else 0) =
        g.spelling.length + if g.isUnknown then 1 else 0 := by
      cases g with
      | plain c => rfl
      | pair c =>
        cases hname : namedEscapes.lookup c <;>
          simp [Glyph.isPair, Glyph.isUnknown, Glyph.reading, Glyph.spelling, hname]
    rw [spell, List.flatMap_cons, List.flatMap_cons, List.length_append, List.length_append,
      List.countP_cons, List.countP_cons, ← spell]
    omega

theorem string_glyphs {t : Token} (h : ReadAs t (.ok .string)) :
    ∃ q gs, isQuote q = true ∧ (∀ g ∈ gs, g.Quotable q) ∧ t.text = q :: (spell gs ++ [q]) := by
  obtain ⟨afterWord, unclosed, q, cs, hread, -, htext⟩ := h
  obtain ⟨hq, hcloses⟩ := read_string hread.symm
  obtain ⟨gs, hgs, htake⟩ := closed_spell hcloses
  exact ⟨q, gs, hq, hgs, by rw [htext, htake]⟩

theorem inner_spell {t : Token} {q : Char} {gs : List Glyph} (h : t.text = q :: (spell gs ++ [q])) :
    inner t = spell gs := by
  rw [inner, h, List.tail_cons, List.dropLast_concat]

/-- The unknown pairs of a token, which only a string has. -/
def row (t : Token) : List (Span × Glyph) := if t.kind = .string then unknownPairs t else []

theorem next_escapes {s u : Scanner} {t : Token} (h : s.next? = some (t, u)) :
    ∃ ds, u.diagnostics = s.diagnostics ++ ds ∧
      List.Forall₂ Marks (row t) (ds.filter isEscape) := by
  obtain ⟨r, hr, hds⟩ := next_reports h
  refine ⟨_, hds, ?_⟩
  by_cases ht : t.kind = .string
  · obtain rfl := read_kind hr ht (by simp)
    obtain ⟨q, gs, hq, hgs, htext⟩ := string_glyphs hr
    have hall : (diagnostics t (.ok .string)).filter isEscape = diagnostics t (.ok .string) := by
      refine List.filter_eq_self.mpr fun d hd => ?_
      obtain ⟨e, -, rfl⟩ := List.mem_map.mp hd
      rfl
    rw [row, if_pos ht, unknownPairs, inner_spell htext, glyphs_spell hgs, hall]
    exact spell_marked hgs hq htext
  · rw [row, if_neg ht]
    have hnone : (diagnostics t r).filter isEscape = [] := by
      refine List.filter_eq_nil_iff.mpr fun d hd => ?_
      cases r with
      | error f =>
        obtain rfl : d = f.diagnostic t := by simpa [diagnostics] using hd
        simpa [isEscape, Fault.diagnostic, Diagnostic.coded] using Faults.fault_code f
      | ok k =>
        obtain ⟨-, -, -, -, -, hkind, -⟩ := hr
        have hk : k ≠ .string := fun hk => ht (by rw [hkind, hk]; rfl)
        cases k <;> simp [diagnostics] at hd hk
    rw [hnone]
    exact .nil

theorem drain_escapes (s : Scanner) :
    ∃ ds, s.drain.2.diagnostics = s.diagnostics ++ ds ∧
      List.Forall₂ Marks (s.drain.1.flatMap row) (ds.filter isEscape) :=
  drain_rows (I := fun _ => True) (fun _ _ _ _ h => ⟨trivial, next_escapes h⟩) s trivial

def isPlacedWithin (s : Span) (p : Span × Glyph) : Bool := s.start ≤ p.1.start && p.1.stop ≤ s.stop

theorem placed_within {s : Span} {p : Span × Glyph} :
    isPlacedWithin s p = true ↔ s.start ≤ p.1.start ∧ p.1.stop ≤ s.stop := by
  simp [isPlacedWithin]

theorem within_marked {s : Span} {p : Span × Glyph} {d : Diagnostic} (h : Marks p d) :
    isPlacedWithin s p = isWithin s d := by
  rw [isWithin, Diagnostic.span?, h.2]
  rfl

theorem row_inside {t : Token} (ht : t.text ≠ []) {p : Span × Glyph} (h : p ∈ row t) :
    LiesIn isPlacedWithin t p := by
  unfold row at h
  split at h
  · obtain ⟨hlo, hne, hhi⟩ := placed_bounds (List.mem_of_mem_filter h)
    rw [spell_glyphs] at hhi
    obtain ⟨c, cs, hc⟩ := List.exists_cons_of_ne_nil ht
    have hinner : byteSize (inner t) ≤ byteSize cs := by
      rw [inner, hc, List.tail_cons]
      conv_rhs => rw [← List.take_append_drop (cs.length - 1) cs, byteSize_append]
      rw [List.dropLast_eq_take]
      exact Nat.le_add_right _ _
    have hpos := c.utf8Size_pos
    refine ⟨p.1, by omega, hne, ?_, fun _ => placed_within⟩
    rw [Token.stop, hc, byteSize_cons]
    omega
  · simp at h

theorem tokenize_escapes (text : String) {t : Token} (ht : t ∈ (tokenize text).1) :
    List.Forall₂ Marks (row t) (reports text t) := by
  obtain ⟨ds, hds, hmarks⟩ := drain_escapes (.ofText text)
  obtain ⟨before, after, hsplit⟩ := List.append_of_mem ht
  have htiled := (tokenize_covers text).1
  have hinside : List.Forall₂ Marks (((tokenize text).1.flatMap row).filter (isPlacedWithin t.span))
      ((ds.filter isEscape).filter (isWithin t.span)) :=
    List.rel_filter (fun _ _ h => Bool.eq_iff_iff.mp (within_marked h)) hmarks
  have hreports : reports text t = (ds.filter isEscape).filter (isWithin t.span) := by
    have hall : (tokenize text).2 = ds := hds
    rw [reports, hall, List.filter_filter]
    simp only [Bool.and_comm]
  rw [hsplit] at hinside htiled
  have hrow := tiled_row htiled fun u hu p hp => row_inside (tiled_filled htiled u hu) hp
  rwa [hrow, ← hreports] at hinside

/-- The reports inside a string are its pairs that reading keeps. -/
theorem string_escaped (text : String) {t : Token} (ht : t ∈ (tokenize text).1)
    (hkind : t.kind = .string) : Escaped text t := by
  obtain ⟨r, hr⟩ := tokenize_read ht
  obtain rfl := read_kind hr hkind (by simp)
  obtain ⟨q, gs, hq, hgs, htext⟩ := string_glyphs hr
  have hinner := inner_spell htext
  have hglyphs : glyphs (inner t) = gs := by rw [hinner, glyphs_spell hgs]
  have hread : unescape t.text = gs.flatMap Glyph.reading := by
    rw [htext, unescape_spell hgs hq]
  have hreported : List.Forall₂ Marks (unknownPairs t) (reports text t) := by
    simpa [row, hkind] using tokenize_escapes text ht
  refine ⟨⟨q, hq, by rw [hinner, htext]⟩, ⟨spell_glyphs _, ?_⟩, by rw [hglyphs, hread],
    fun g _ hg => reading_kept hg, hreported, ?_⟩
  · rw [hglyphs]
    exact fun hmem => (hgs _ hmem).2.1 rfl
  · have hcount : (reports text t).length = gs.countP Glyph.isUnknown := by
      rw [← hreported.length_eq, unknownPairs, placed_count, hglyphs]
    have hlength := reading_length gs
    have hquotes : t.text.length = (spell gs).length + 2 := by simp [htext]
    rw [hglyphs, hread, hcount, hquotes]
    omega

theorem string_escaped_second :
    ⟨.string, 5, "'\\\\\\q\\é\\''".toList⟩ ∈ (tokenize "\"\\q\" '\\\\\\q\\é\\''").1 ∧
      Escaped "\"\\q\" '\\\\\\q\\é\\''" ⟨.string, 5, "'\\\\\\q\\é\\''".toList⟩ := by
  have hmem : ⟨.string, 5, "'\\\\\\q\\é\\''".toList⟩ ∈
      (tokenize "\"\\q\" '\\\\\\q\\é\\''").1 := by decide +kernel
  exact ⟨hmem, string_escaped _ hmem rfl⟩

end DiagramText.Escapes
