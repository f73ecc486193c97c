import DiagramText.Token.Scanner
import Mathlib.Data.List.Forall2
import Mathlib.Data.String.Basic

/-!
# Tokens tile the text

Each step of the scanner takes a non-empty piece off the text, so a whole run
cuts the text into tokens that follow each other without a gap. What the
scanner reports carries a code of its own pass. Offsets count bytes, and the
bytes of a text are those of its characters.
-/

set_option autoImplicit false

namespace DiagramText.Scanning
open Text

def spelled (ts : List Token) : List Char := ts.flatMap (·.text)

/-- From the offset on, the tokens follow each other without a gap, and none is empty. -/
def Tiled : Nat → List Token → Prop
  | _, [] => True
  | offset, t :: ts => t.start = offset ∧ t.text ≠ [] ∧ Tiled t.stop ts

/-- The tokens tile the document from the offset to its end. -/
def Covers (offset : Nat) (ts : List Token) (size : Nat) : Prop :=
  Tiled offset ts ∧ offset + byteSize (spelled ts) = size

@[simp]
theorem spelled_nil : spelled [] = [] := rfl

@[simp]
theorem spelled_cons (t : Token) (ts : List Token) :
    spelled (t :: ts) = t.text ++ spelled ts := rfl

@[simp]
theorem spelled_append (ts us : List Token) :
    spelled (ts ++ us) = spelled ts ++ spelled us := by
  simp [spelled]

theorem covers_cons {offset size : Nat} {t : Token} {ts : List Token} :
    Covers offset (t :: ts) size ↔ t.start = offset ∧ t.text ≠ [] ∧ Covers t.stop ts size := by
  constructor
  · rintro ⟨⟨rfl, hne, ht⟩, hs⟩
    refine ⟨rfl, hne, ht, ?_⟩
    rw [← hs, Token.stop, spelled_cons, byteSize_append, Nat.add_assoc]
  · rintro ⟨rfl, hne, ht, hs⟩
    refine ⟨⟨rfl, hne, ht⟩, ?_⟩
    rw [← hs, Token.stop, spelled_cons, byteSize_append, Nat.add_assoc]

def isSign (k : TokenKind) : Bool :=
  k.isConnector || k == .dot || k == .colon || k == .semicolon || k == .leftBrace ||
    k == .rightBrace || k == .leftBracket || k == .rightBracket

theorem connector_sign {c : Char} {cs : List Char} {k : TokenKind} {n : Nat}
    (h : Lexeme.connector? c cs = some (k, n)) : isSign k = true := by
  unfold Lexeme.connector? at h
  grind [isSign, TokenKind.isConnector, TokenKind.connector?]

theorem punctuation_sign {c : Char} {k : TokenKind} (h : Lexeme.punctuation? c = some k) :
    isSign k = true := by
  unfold Lexeme.punctuation? at h
  grind [isSign]

def isLiteral (k : TokenKind) : Bool :=
  k == .string || k == .blockString || k == .blockComment || k == .error

theorem sign_plain {k : TokenKind} (h : isSign k = true) : isLiteral k = false := by
  cases k <;> first | rfl | contradiction

theorem plain_kind {c : Char} {cs : List Char} {k : TokenKind}
    (h : (Lexeme.readPlain c cs).1 = .ok k) : ¬isLiteral k = true := by
  rw [Bool.not_eq_true]
  unfold Lexeme.readPlain at h
  split at h
  · next hconnector => exact sign_plain (connector_sign (Except.ok.inj h ▸ hconnector))
  · cases hp : Lexeme.punctuation? c with
    | none => grind [isLiteral]
    | some k' => grind [isLiteral, sign_plain, punctuation_sign]

theorem read_readable (afterWord : Bool) (unclosed : List Nat) (c : Char) (cs : List Char) :
    (Lexeme.read afterWord unclosed c cs).1 ≠ .ok .error := by
  have hplain : (Lexeme.readPlain c cs).1 ≠ .ok .error := fun h => plain_kind h rfl
  unfold Lexeme.read Lexeme.readString Lexeme.readComment Lexeme.readPipes
  grind

/-- A word takes its word characters, and blanks take all blanks of the line. -/
structure Greedy (c : Char) (cs : List Char) (lexeme : Lexeme.Reading × Nat) : Prop where
  word : Lexeme.kind lexeme.1 = .identifier →
    isWordChar c = true ∧ isBlank c = false ∧ lexeme.2 = Lexeme.wordLength cs
  space : Lexeme.kind lexeme.1 = .whitespace →
    Lexeme.isSpace c = true ∧ lexeme.2 = (cs.takeWhile Lexeme.isSpace).length

theorem plain_greedy (c : Char) (cs : List Char) : Greedy c cs (Lexeme.readPlain c cs) := by
  unfold Lexeme.readPlain
  split
  · next k n hk =>
    unfold Lexeme.connector? at hk
    constructor <;> grind [Lexeme.kind]
  · by_cases hnewline : c = '\n'
    · rw [if_pos hnewline]
      constructor <;> simp [Lexeme.kind]
    by_cases hblank : isBlank c = true
    · rw [if_neg hnewline, if_pos hblank]
      constructor <;> simp [Lexeme.kind, Lexeme.isSpace, hblank, hnewline]
    by_cases hhash : c = '#'
    · rw [if_neg hnewline, if_neg hblank, if_pos hhash]
      constructor <;> simp [Lexeme.kind]
    by_cases hword : isWordChar c = true
    · rw [if_neg hnewline, if_neg hblank, if_neg hhash, if_pos hword]
      constructor <;> simp [Lexeme.kind, hword, hblank]
    · rw [if_neg hnewline, if_neg hblank, if_neg hhash, if_neg hword]
      unfold Lexeme.punctuation?
      constructor <;> grind [Lexeme.kind]

theorem read_greedy (afterWord : Bool) (unclosed : List Nat) (c : Char) (cs : List Char) :
    Greedy c cs (Lexeme.read afterWord unclosed c cs) := by
  have hplain := plain_greedy c cs
  unfold Lexeme.read Lexeme.readComment Lexeme.readString Lexeme.readPipes
  constructor <;> grind [Lexeme.kind, Greedy]

theorem next_none {s : Scanner} : s.next? = none ↔ s.rest = [] := by
  unfold Scanner.next?
  split
  · next hr => simp [hr]
  · next hr => simp [hr]

theorem next_cons {s u : Scanner} {t : Token} (h : s.next? = some (t, u)) :
    ∃ c cs, s.rest = c :: cs ∧
      t = ⟨Lexeme.kind (Lexeme.read s.afterWord s.unclosed c cs).1, s.offset,
        c :: cs.take (Lexeme.read s.afterWord s.unclosed c cs).2⟩ ∧
      u = ⟨cs.drop (Lexeme.read s.afterWord s.unclosed c cs).2, t.stop, t.kind == .identifier,
        Scanner.noteUnclosed s.unclosed t cs,
        s.diagnostics ++ Lexeme.diagnostics t (Lexeme.read s.afterWord s.unclosed c cs).1⟩ := by
  unfold Scanner.next? at h
  split at h
  · simp at h
  · next c cs hr =>
    simp only [Option.some.injEq, Prod.mk.injEq] at h
    obtain ⟨rfl, rfl⟩ := h
    exact ⟨c, cs, hr, rfl, rfl⟩

theorem next_cuts {s s' : Scanner} {t : Token} (h : s.next? = some (t, s')) :
    t.start = s.offset ∧ t.text ≠ [] ∧ s'.offset = t.stop ∧ s.rest = t.text ++ s'.rest := by
  obtain ⟨c, cs, hr, rfl, rfl⟩ := next_cons h
  refine ⟨rfl, by simp, rfl, ?_⟩
  simp [hr]

theorem drain_next {s s' : Scanner} {t : Token} (h : s.next? = some (t, s')) :
    s.drain = (t :: s'.drain.1, s'.drain.2) := by
  rw [Scanner.drain]
  split
  · next hnone => simp [h] at hnone
  · next u s'' hsome =>
    obtain ⟨rfl, rfl⟩ : t = u ∧ s' = s'' := by simpa [h] using hsome
    rfl

theorem drain_end {s : Scanner} (h : s.next? = none) : s.drain = ([], s) := by
  rw [Scanner.drain]
  split
  · rfl
  · next hsome => simp [h] at hsome

theorem drain_tiles (s : Scanner) :
    Tiled s.offset s.drain.1 ∧ spelled s.drain.1 = s.rest := by
  fun_induction Scanner.drain s with
  | case1 s h => exact ⟨trivial, (next_none.mp h).symm⟩
  | case2 s t s' h rest ih =>
    obtain ⟨hstart, hne, hoff, hrest⟩ := next_cuts h
    rw [hoff] at ih
    exact ⟨⟨hstart, hne, ih.1⟩, by rw [spelled_cons, ih.2, hrest]⟩

theorem drain_reaches {I : Scanner → Prop}
    (keeps : ∀ s t u, I s → s.next? = some (t, u) → I u) (s : Scanner) (hs : I s)
    {before after : List Token} {t : Token} (h : s.drain.1 = before ++ t :: after) :
    ∃ v u, I v ∧ v.next? = some (t, u) ∧ v.rest = spelled (t :: after) := by
  fun_induction Scanner.drain s generalizing before with
  | case1 s hnone => simp at h
  | case2 s v u hnext rest ih =>
    cases before with
    | nil =>
      obtain ⟨rfl, rfl⟩ : v = t ∧ u.drain.1 = after := by simpa using h
      obtain ⟨-, -, -, hrest⟩ := next_cuts hnext
      exact ⟨s, u, hs, hnext, by rw [hrest, spelled_cons, (drain_tiles u).2]⟩
    | cons w before =>
      obtain ⟨rfl, htail⟩ : v = w ∧ u.drain.1 = before ++ t :: after := by simpa using h
      exact ih (keeps s v u hs hnext) htail

theorem byteSize_utf8Len (cs : List Char) : byteSize cs = String.utf8Len cs := by
  induction cs with
  | nil => rfl
  | cons c cs ih => rw [byteSize_cons, ih, String.utf8Len_cons, Nat.add_comm]

theorem byteSize_toList (text : String) : byteSize text.toList = text.utf8ByteSize := by
  rw [byteSize_utf8Len, String.utf8Len_toList]

theorem tokenize_spells (text : String) : spelled (tokenize text).1 = text.toList :=
  (drain_tiles (.ofText text)).2

theorem tokenize_covers (text : String) : Covers 0 (tokenize text).1 text.utf8ByteSize := by
  refine ⟨(drain_tiles (.ofText text)).1, ?_⟩
  rw [Nat.zero_add, tokenize_spells, byteSize_toList]

/-- The token is what stands at the head of some text, read so. -/
def ReadAs (t : Token) (r : Lexeme.Reading) : Prop :=
  ∃ afterWord unclosed c cs, r = (Lexeme.read afterWord unclosed c cs).1 ∧
    t.kind = Lexeme.kind r ∧ t.text = c :: cs.take (Lexeme.read afterWord unclosed c cs).2

theorem next_reports {s s' : Scanner} {t : Token} (h : s.next? = some (t, s')) :
    ∃ r, ReadAs t r ∧ s'.diagnostics = s.diagnostics ++ Lexeme.diagnostics t r := by
  obtain ⟨c, cs, hr, rfl, rfl⟩ := next_cons h
  exact ⟨_, ⟨s.afterWord, s.unclosed, c, cs, rfl, rfl, rfl⟩, rfl⟩

theorem tokenize_read {text : String} {t : Token} (ht : t ∈ (tokenize text).1) :
    ∃ r, ReadAs t r := by
  obtain ⟨before, after, hsplit⟩ := List.append_of_mem ht
  obtain ⟨v, u, -, hnext, -⟩ :=
    drain_reaches (I := fun _ => True) (fun _ _ _ _ _ => trivial) (.ofText text) trivial hsplit
  obtain ⟨r, hr, -⟩ := next_reports hnext
  exact ⟨r, hr⟩

theorem read_kind {t : Token} {r : Lexeme.Reading} {k : TokenKind} (h : ReadAs t r)
    (ht : t.kind = k) (hk : k ≠ .error) : r = .ok k := by
  obtain ⟨-, -, -, -, -, hkind, -⟩ := h
  rw [ht] at hkind
  cases r with
  | ok k' => exact congrArg Except.ok hkind.symm
  | error f => exact absurd hkind hk

theorem drain_reports {P : Diagnostic → Prop}
    (hread : ∀ t r, ReadAs t r → ∀ d ∈ Lexeme.diagnostics t r, P d) (s : Scanner)
    (hs : ∀ d ∈ s.diagnostics, P d) : ∀ d ∈ s.drain.2.diagnostics, P d := by
  fun_induction Scanner.drain s with
  | case1 s h => exact hs
  | case2 s t s' h rest ih =>
    apply ih
    obtain ⟨r, hr, hreports⟩ := next_reports h
    rw [hreports]
    exact List.forall_mem_append.mpr ⟨hs, hread t r hr⟩

theorem tokenize_reports {P : Diagnostic → Prop}
    (hread : ∀ t r, ReadAs t r → ∀ d ∈ Lexeme.diagnostics t r, P d) (text : String) :
    ∀ d ∈ (tokenize text).2, P d :=
  drain_reports hread (.ofText text) (by simp [Scanner.ofText])

theorem drain_rows {α : Type} {R : α → Diagnostic → Prop} {I : Scanner → Prop}
    {row : Token → List α} {p : Diagnostic → Bool}
    (step : ∀ s u t, I s → s.next? = some (t, u) → I u ∧
      ∃ ds, u.diagnostics = s.diagnostics ++ ds ∧ List.Forall₂ R (row t) (ds.filter p))
    (s : Scanner) (hs : I s) :
    ∃ ds, s.drain.2.diagnostics = s.diagnostics ++ ds ∧
      List.Forall₂ R (s.drain.1.flatMap row) (ds.filter p) := by
  fun_induction Scanner.drain s with
  | case1 s h => exact ⟨[], by simp, .nil⟩
  | case2 s t u h rest ih =>
    obtain ⟨hu, ds, hds, hfirst⟩ := step s u t hs h
    obtain ⟨es, hes, hothers⟩ := ih hu
    refine ⟨ds ++ es, by rw [hes, hds, List.append_assoc], ?_⟩
    have hboth : List.Forall₂ R (row t ++ u.drain.1.flatMap row) (ds.filter p ++ es.filter p) :=
      List.rel_append hfirst hothers
    rwa [← List.filter_append] at hboth

/-- A diagnostic of the scanner's own pass. -/
def Lexical (d : Diagnostic) : Prop := ∃ k, d.code = some k ∧ k.phase = .scan

theorem lexeme_lexical (t : Token) (r : Lexeme.Reading) :
    ∀ d ∈ Lexeme.diagnostics t r, Lexical d := by
  intro d hd
  unfold Lexeme.diagnostics at hd
  split at hd
  · next f =>
    obtain rfl : d = f.diagnostic t := by simpa using hd
    exact ⟨f.code, rfl, by cases f <;> rfl⟩
  · obtain ⟨e, -, rfl⟩ := List.mem_map.mp hd
    exact ⟨.invalidEscape, rfl, rfl⟩
  · simp at hd

theorem tokenize_lexical (text : String) : ∀ d ∈ (tokenize text).2, Lexical d :=
  tokenize_reports (fun t r _ => lexeme_lexical t r) text

theorem tiled_starts {offset : Nat} {ts : List Token} (h : Tiled offset ts) :
    ∀ t ∈ ts, offset ≤ t.start := by
  induction ts generalizing offset with
  | nil => simp
  | cons u ts ih =>
    obtain ⟨rfl, -, ht⟩ := h
    intro t hmem
    rcases List.mem_cons.mp hmem with rfl | hmem
    · exact le_rfl
    · exact (Nat.le_add_right _ _).trans (ih ht t hmem)

theorem tiled_start {offset : Nat} {before after : List Token} {t : Token}
    (h : Tiled offset (before ++ t :: after)) :
    t.start = offset + byteSize (spelled before) := by
  induction before generalizing offset with
  | nil => exact h.1
  | cons u before ih =>
    obtain ⟨rfl, -, ht⟩ := h
    rw [ih ht, Token.stop, spelled_cons, byteSize_append, Nat.add_assoc]

theorem tiled_apart {offset : Nat} {before after : List Token} {t : Token}
    (h : Tiled offset (before ++ t :: after)) :
    (∀ u ∈ before, u.stop ≤ t.start) ∧ ∀ u ∈ after, t.stop ≤ u.start := by
  induction before generalizing offset with
  | nil => exact ⟨by simp, tiled_starts h.2.2⟩
  | cons v before ih =>
    obtain ⟨hbefore, hafter⟩ := ih h.2.2
    refine ⟨List.forall_mem_cons.mpr ⟨?_, hbefore⟩, hafter⟩
    exact tiled_starts h.2.2 t (by simp)

theorem token_width {t : Token} (h : t.text ≠ []) : t.start < t.stop := by
  obtain ⟨c, cs, hc⟩ := List.exists_cons_of_ne_nil h
  have hpos := c.utf8Size_pos
  rw [Token.stop, hc, byteSize_cons]
  omega

theorem tiled_widths {offset : Nat} {ts : List Token} (h : Tiled offset ts) :
    ∀ t ∈ ts, t.start < t.stop := by
  induction ts generalizing offset with
  | nil => simp
  | cons u ts ih =>
    obtain ⟨-, hne, ht⟩ := h
    intro t hmem
    rcases List.mem_cons.mp hmem with rfl | hmem
    · exact token_width hne
    · exact ih ht t hmem

theorem tiled_filled {offset : Nat} {ts : List Token} (h : Tiled offset ts) :
    ∀ t ∈ ts, t.text ≠ [] := by
  intro t ht hnil
  have hwide := tiled_widths h t ht
  rw [Token.stop, hnil] at hwide
  exact Nat.lt_irrefl _ hwide

theorem tiled_nodup {offset : Nat} {ts : List Token} (h : Tiled offset ts) : ts.Nodup := by
  induction ts generalizing offset with
  | nil => exact List.nodup_nil
  | cons t ts ih =>
    obtain ⟨rfl, hne, ht⟩ := h
    refine List.nodup_cons.mpr ⟨fun hmem => ?_, ih ht⟩
    have hle := tiled_starts ht t hmem
    exact absurd (token_width hne) (Nat.not_lt.mpr hle)

/-- What is found at a token lies inside it and takes some of its bytes. -/
def LiesIn {α : Type} (inside : Span → α → Bool) (t : Token) (x : α) : Prop :=
  ∃ s : Span, t.start ≤ s.start ∧ s.start < s.stop ∧ s.stop ≤ t.stop ∧
    ∀ w : Span, inside w x = true ↔ w.start ≤ s.start ∧ s.stop ≤ w.stop

theorem tiled_row {α : Type} {row : Token → List α} {inside : Span → α → Bool} {o : Nat}
    {before after : List Token} {t : Token} (h : Tiled o (before ++ t :: after))
    (hrow : ∀ u ∈ before ++ t :: after, ∀ x ∈ row u, LiesIn inside u x) :
    ((before ++ t :: after).flatMap row).filter (inside t.span) = row t := by
  obtain ⟨hbefore, hafter⟩ := tiled_apart h
  have hout : ∀ us : List Token, (∀ u ∈ us, u ∈ before ++ t :: after) →
      (∀ u ∈ us, u.stop ≤ t.start ∨ t.stop ≤ u.start) →
      (us.flatMap row).filter (inside t.span) = [] := by
    intro us hmem hside
    refine List.filter_eq_nil_iff.mpr fun x hx => ?_
    obtain ⟨u, hu, hx⟩ := List.mem_flatMap.mp hx
    obtain ⟨s, hlo, hwide, hhi, hin⟩ := hrow u (hmem u hu) x hx
    have hside := hside u hu
    rw [hin]
    change ¬(t.start ≤ _ ∧ _ ≤ t.stop)
    omega
  have hin : (row t).filter (inside t.span) = row t := by
    refine List.filter_eq_self.mpr fun x hx => ?_
    obtain ⟨s, hlo, -, hhi, hin⟩ := hrow t (by simp) x hx
    exact (hin t.span).mpr ⟨hlo, hhi⟩
  rw [List.flatMap_append, List.flatMap_cons, List.filter_append, List.filter_append, hin,
    hout before (fun u hu => by simp [hu]) fun u hu => .inl (hbefore u hu),
    hout after (fun u hu => by simp [hu]) fun u hu => .inr (hafter u hu)]
  simp

end DiagramText.Scanning
