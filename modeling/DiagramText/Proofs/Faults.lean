import DiagramText.Proofs.Comments

/-!
# Error tokens and their reports

The scanner comes to the end of every text, one token a step. A token that it
cannot read is an error token: a quote that its line does not close runs to the
end of the line, three quotes that nothing closes run to the end of the text,
and a control character stands alone. Each error token has one report, on its
own span, and the reports come in the order of the tokens. All other reports of
the scanner are about escapes.
-/

set_option autoImplicit false

namespace DiagramText.Faults
open Text Lexeme Scanning Lines Pruning Comments

/-- What is wrong with the text of an error token, with the text behind it. -/
inductive Flaw : List Char → List Char → Code → Prop where
  | string {q : Char} {line after : List Char} (quote : Literal.isQuote q = true)
      (single : ¬['"', '"', '"'] <+: q :: line) (stays : '\n' ∉ line)
      (opened : closingQuote? q line = none) (stops : LineEnd after) :
      Flaw (q :: line) after .unterminatedString
  | comment {body : List Char} (opened : ¬['"', '"', '"'] <:+: body) :
      Flaw (['"', '"', '"'] ++ body) [] .unterminatedComment
  | control {c : Char} {after : List Char} (control : isControl c = true) :
      Flaw [c] after .unexpectedCharacter

theorem string_flaw {q : Char} {cs : List Char} {f : Fault} (quote : Literal.isQuote q = true)
    (single : q = '"' → ¬['"', '"'] <+: cs) (h : (readString q cs).1 = .error f) :
    Flaw (q :: cs.take (readString q cs).2) (cs.drop (readString q cs).2) f.code := by
  have hq : q ≠ '\\' ∧ q ≠ '\n' := by
    constructor <;> rintro rfl <;> simp [Literal.isQuote] at quote
  unfold readString at h ⊢
  cases hc : closingQuote? q cs with
  | some n => simp [hc] at h
  | none =>
    obtain rfl : Fault.unterminatedString = f := by simpa [hc] using h
    have hopened : closingQuote? q (cs.take (lineLength cs)) = none := by
      rw [← quote_line hq.1 hq.2 (line_take cs) (line_drop cs), List.take_append_drop, hc]
    refine .string quote ?_ (line_take cs) hopened (line_drop cs)
    intro hthree
    obtain ⟨rfl, htwo⟩ := List.cons_prefix_cons.mp hthree
    exact single rfl (htwo.trans (List.take_prefix _ cs))

theorem comment_flaw {cs : List Char} {f : Fault} (hopen : ['"', '"'] <+: cs)
    (h : (readComment cs).1 = .error f) :
    Flaw ('"' :: cs.take (readComment cs).2) (cs.drop (readComment cs).2) f.code := by
  obtain ⟨body, rfl⟩ := hopen
  have hdrop : (['"', '"'] ++ body).drop 2 = body := rfl
  unfold readComment at h ⊢
  rw [hdrop] at h ⊢
  cases hc : indexOf? ['"', '"', '"'] body with
  | some n => simp [hc] at h
  | none =>
    obtain rfl : Fault.unterminatedComment = f := by simpa [hc] using h
    rw [List.take_length, List.drop_length]
    exact .comment (indexOf?_eq_none_iff.mp hc)

theorem plain_stray {c : Char} {cs : List Char} {f : Fault}
    (h : (readPlain c cs).1 = .error f) :
    readPlain c cs = (.error .strayCharacter, 0) ∧ isControl c = true := by
  unfold readPlain at h ⊢
  grind

theorem plain_flaw {c : Char} {cs : List Char} {f : Fault}
    (h : (readPlain c cs).1 = .error f) :
    Flaw (c :: cs.take (readPlain c cs).2) (cs.drop (readPlain c cs).2) f.code := by
  obtain ⟨hread, hcontrol⟩ := plain_stray h
  obtain rfl : Fault.strayCharacter = f := by simpa [hread] using h
  rw [hread]
  exact .control hcontrol

theorem read_flaw {afterWord : Bool} {unclosed : List Nat} {c : Char} {cs : List Char} {f : Fault}
    (h : (Lexeme.read afterWord unclosed c cs).1 = .error f) :
    Flaw (c :: cs.take (Lexeme.read afterWord unclosed c cs).2)
      (cs.drop (Lexeme.read afterWord unclosed c cs).2) f.code := by
  unfold Lexeme.read at h ⊢
  by_cases hq : c = '"'
  · subst hq
    simp only [if_true] at h ⊢
    split at h
    · next hopen =>
      rw [if_pos hopen]
      exact comment_flaw (List.isPrefixOf_iff_prefix.mp hopen) h
    · next hopen =>
      rw [if_neg hopen]
      exact string_flaw rfl (fun _ htwo => hopen (List.isPrefixOf_iff_prefix.mpr htwo)) h
  simp only [if_neg hq] at h ⊢
  by_cases ha : c = '\''
  · subst ha
    simp only [if_true] at h ⊢
    cases afterWord with
    | true => simp at h
    | false => exact string_flaw rfl (fun htwo => absurd htwo (by decide)) h
  simp only [if_neg ha] at h ⊢
  by_cases hb : c = '|'
  · unfold readPipes at h
    grind
  simp only [if_neg hb] at h ⊢
  exact plain_flaw h

def Flags (cs : List Char) (t : Token) (d : Diagnostic) : Prop :=
  ∃ before after k, cs = before ++ t.text ++ after ∧ t.start = byteSize before ∧
    Flaw t.text after k ∧ d.code = some k ∧ d.labels = [⟨t.span, k.description, true⟩]

def isFaulty (t : Token) : Bool := t.kind == .error

def isFault (d : Diagnostic) : Bool := d.code != some .invalidEscape

theorem fault_code (f : Fault) : f.code ≠ .invalidEscape := by
  cases f <;> simp [Fault.code]

theorem readable_escapes {t : Token} {k : TokenKind} {d : Diagnostic}
    (h : d ∈ Lexeme.diagnostics t (.ok k)) : isFault d = false := by
  unfold Lexeme.diagnostics at h
  split at h
  · contradiction
  · obtain ⟨e, -, rfl⟩ := List.mem_map.mp h
    rfl
  · simp at h

theorem next_flags {cs front : List Char} {s u : Scanner} {t : Token}
    (hcs : cs = front ++ s.rest) (ho : s.offset = byteSize front) (h : s.next? = some (t, u)) :
    ∃ ds, u.diagnostics = s.diagnostics ++ ds ∧
      List.Forall₂ (Flags cs) ([t].filter isFaulty) (ds.filter isFault) := by
  obtain ⟨c, rest, hr, ht, hu⟩ := next_cons h
  have hread := @read_flaw s.afterWord s.unclosed c rest
  have hok := read_readable s.afterWord s.unclosed c rest
  generalize Lexeme.read s.afterWord s.unclosed c rest = lexeme at *
  refine ⟨Lexeme.diagnostics t lexeme.1, by rw [hu], ?_⟩
  cases hl : lexeme.1 with
  | error f =>
    have hflaw := hread hl
    have hmarks : Flags cs t (f.diagnostic t) := by
      refine ⟨front, rest.drop lexeme.2, f.code, ?_, by rw [ht, ho], by rwa [ht], rfl, rfl⟩
      rw [hcs, hr, ht]
      simp
    have hfaulty : isFaulty t = true := by simp [isFaulty, ht, hl, Lexeme.kind]
    have hfault : isFault (f.diagnostic t) = true := by
      simpa [isFault, Fault.diagnostic, Diagnostic.coded] using fault_code f
    simpa [Lexeme.diagnostics, hfaulty, hfault] using hmarks
  | ok k =>
    have hfaulty : isFaulty t = false := by
      have hk : k ≠ .error := fun hk => hok (hk ▸ hl)
      simpa [isFaulty, ht, hl, Lexeme.kind] using hk
    have hescapes : (Lexeme.diagnostics t (.ok k)).filter isFault = [] :=
      List.filter_eq_nil_iff.mpr fun d hd => by simp [readable_escapes hd]
    simp [hfaulty, hescapes]

theorem drain_flags {cs : List Char} (s : Scanner)
    (hs : ∃ front, cs = front ++ s.rest ∧ s.offset = byteSize front) :
    ∃ ds, s.drain.2.diagnostics = s.diagnostics ++ ds ∧
      List.Forall₂ (Flags cs) (s.drain.1.filter isFaulty) (ds.filter isFault) := by
  have hrows : s.drain.1.filter isFaulty = s.drain.1.flatMap fun t => [t].filter isFaulty := by
    rw [← List.filter_flatMap, List.flatMap_singleton']
  rw [hrows]
  refine drain_rows (I := fun s => ∃ front, cs = front ++ s.rest ∧ s.offset = byteSize front)
    (fun s u t hs h => ?_) s hs
  obtain ⟨front, hcs, ho⟩ := hs
  obtain ⟨hstart, -, hoff, hrest⟩ := next_cuts h
  refine ⟨⟨front ++ t.text, by rw [hcs, hrest, List.append_assoc], ?_⟩, next_flags hcs ho h⟩
  rw [hoff, Token.stop, hstart, ho, byteSize_append]

theorem take_drain (s : Scanner) : s.take s.drain.1.length = s.drain := by
  fun_induction Scanner.drain s with
  | case1 s h => rfl
  | case2 s t u h rest ih => simp only [List.length_cons, Scanner.take, h, ih, rest]

theorem drain_done (s : Scanner) : s.drain.2.next? = none := by
  fun_induction Scanner.drain s with
  | case1 s h => exact h
  | case2 s t u h rest ih => exact ih

theorem tiled_length {offset : Nat} {ts : List Token} (h : Tiled offset ts) :
    ts.length ≤ (spelled ts).length := by
  induction ts generalizing offset with
  | nil => simp
  | cons t ts ih =>
    obtain ⟨-, hne, ht⟩ := h
    have hpos := List.length_pos_iff.mpr hne
    have hrest := ih ht
    rw [List.length_cons, spelled_cons, List.length_append]
    omega

/-- What it means that the scanner reads a text through. -/
structure ReadThrough (text : String) : Prop where
  ends : ∃ s, (Scanner.ofText text).take (tokenize text).1.length = ((tokenize text).1, s) ∧
    s.next? = none ∧ s.diagnostics = (tokenize text).2
  steps : (tokenize text).1.length ≤ text.length
  covers : Covers 0 (tokenize text).1 text.utf8ByteSize
  slices : ∀ t ∈ (tokenize text).1, Lossless.Sliced text (.token t)
  reports : List.Forall₂ (Flags text.toList) ((tokenize text).1.filter isFaulty)
    ((tokenize text).2.filter isFault)

theorem tokenize_reads_through (text : String) : ReadThrough text := by
  have hcovers := tokenize_covers text
  have hspells := tokenize_spells text
  constructor
  · exact ⟨_, take_drain (.ofText text), drain_done _, rfl⟩
  · have hlength := tiled_length hcovers.1
    rwa [hspells] at hlength
  · exact hcovers
  · intro t ht
    exact Lossless.covered_sliced hspells (Lossless.token_covered hcovers.1 ht)
  · obtain ⟨ds, hds, hmarks⟩ := drain_flags (.ofText text) ⟨[], rfl, rfl⟩
    have hall : (tokenize text).2 = ds := hds
    rw [hall]
    exact hmarks

end DiagramText.Faults
