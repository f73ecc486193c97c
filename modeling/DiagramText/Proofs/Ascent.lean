import DiagramText.Proofs.Lossless

/-!
# Reports in the order of the text

The reports of a pass ascend when each starts no earlier than the one before
it. The scanner reports inside the token that it has just read, and the grammar
at the token that it has come to, so the reports of both ascend; and as tokens
tile the text, every label lies between two of its characters.
-/

set_option autoImplicit false

namespace DiagramText.Ascent
open Text Scanning DiagramText.Derivation Layout DiagramText.Tree

/-- The offset lies between two characters of the text. -/
def Boundary (cs : List Char) (o : Nat) : Prop :=
  ∃ before after, cs = before ++ after ∧ o = byteSize before

structure Bounded (cs : List Char) (s : Span) : Prop where
  ordered : s.start ≤ s.stop
  start : Boundary cs s.start
  stop : Boundary cs s.stop

/-- A report of the pass whose primary span starts at the offset, with its labels in the text. -/
structure Located (cs : List Char) (phase : Code.Phase) (d : Diagnostic) (o : Nat) : Prop where
  code : ∃ k, d.code = some k ∧ k.phase = phase
  primary : ∃ s, d.span? = some s ∧ s.start = o
  labels : ∀ l ∈ d.labels, Bounded cs l.span

def Ascends (cs : List Char) (phase : Code.Phase) : Nat → Nat → List Diagnostic → Prop
  | lo, hi, [] => lo ≤ hi
  | lo, hi, d :: ds => ∃ o, lo ≤ o ∧ Located cs phase d o ∧ Ascends cs phase o hi ds

section
variable {cs : List Char} {phase : Code.Phase} {lo mid hi : Nat} {d : Diagnostic}
  {ds es : List Diagnostic}

theorem ascends_lower (h : Ascends cs phase mid hi ds) (hlo : lo ≤ mid) :
    Ascends cs phase lo hi ds := by
  cases ds with
  | nil => exact hlo.trans h
  | cons d ds =>
    obtain ⟨o, ho, hd, hds⟩ := h
    exact ⟨o, hlo.trans ho, hd, hds⟩

theorem ascends_append (hd : Ascends cs phase lo mid ds) (he : Ascends cs phase mid hi es) :
    Ascends cs phase lo hi (ds ++ es) := by
  induction ds generalizing lo with
  | nil => exact ascends_lower he hd
  | cons d ds ih =>
    obtain ⟨o, ho, hl, hds⟩ := hd
    exact ⟨o, ho, hl, ih hds⟩

theorem ascends_upper (h : Ascends cs phase lo mid ds) (hhi : mid ≤ hi) :
    Ascends cs phase lo hi ds := by
  have h' : Ascends cs phase mid hi [] := hhi
  simpa using ascends_append h h'

theorem ascends_located (h : Ascends cs phase lo hi ds) :
    ∀ d ∈ ds, ∃ o, lo ≤ o ∧ Located cs phase d o := by
  induction ds generalizing lo with
  | nil => simp
  | cons e ds ih =>
    obtain ⟨o, ho, hl, hds⟩ := h
    intro d hd
    rcases List.mem_cons.mp hd with rfl | hd
    · exact ⟨o, ho, hl⟩
    · obtain ⟨o', ho', hl'⟩ := ih hds d hd
      exact ⟨o', ho.trans ho', hl'⟩

/-- The primary span of the first report does not start after that of the second. -/
def Precedes (d e : Diagnostic) : Prop :=
  ∀ s t, d.span? = some s → e.span? = some t → s.start ≤ t.start

theorem ascends_pairwise (h : Ascends cs phase lo hi ds) : ds.Pairwise Precedes := by
  induction ds generalizing lo with
  | nil => exact .nil
  | cons d ds ih =>
    obtain ⟨o, -, hl, hds⟩ := h
    refine .cons ?_ (ih hds)
    intro e he s t hs ht
    obtain ⟨o', ho', hl'⟩ := ascends_located hds e he
    obtain ⟨s', hs', rfl⟩ := hl.primary
    obtain ⟨t', ht', rfl⟩ := hl'.primary
    obtain rfl := Option.some.inj (hs.symm.trans hs')
    obtain rfl := Option.some.inj (ht.symm.trans ht')
    exact ho'

theorem located_single {k : Code} {s : Span} (hcode : d.code = some k) (hspan : d.span? = some s)
    (hone : d.labels.length = 1) (hs : Bounded cs s) : Located cs k.phase d s.start := by
  refine ⟨⟨k, hcode, rfl⟩, ⟨s, hspan, rfl⟩, ?_⟩
  obtain ⟨l, hl⟩ := List.length_eq_one_iff.mp hone
  intro l' hl'
  obtain rfl : l' = l := by simpa [hl] using hl'
  rw [Diagnostic.span?, hl] at hspan
  by_cases hp : l'.primary
  · obtain rfl : l'.span = s := by simpa [hp] using hspan
    exact hs
  · simp [hp] at hspan

theorem ascends_one {o : Nat} (hlo : lo ≤ o) (hhi : o ≤ hi) (h : Located cs phase d o) :
    Ascends cs phase lo hi [d] :=
  ⟨o, hlo, h, hhi⟩

end

theorem boundary_front {cs before after : List Char} (h : cs = before ++ after) :
    Boundary cs (byteSize before) :=
  ⟨before, after, h, rfl⟩

theorem bounded_piece {cs before mid after : List Char} (h : cs = before ++ mid ++ after) :
    Bounded cs ⟨byteSize before, byteSize (before ++ mid)⟩ := by
  refine ⟨?_, boundary_front (h.trans (List.append_assoc ..)), boundary_front h⟩
  rw [byteSize_append]
  exact Nat.le_add_right _ _

theorem escapes_ascend {cs before mid after : List Char} {start : Nat}
    (h : cs = before ++ mid ++ after) (hs : start = byteSize before) :
    Ascends cs .scan start (start + byteSize mid)
      ((Literal.unknownEscapes start mid).map fun e => Lexeme.escapeDiagnostic e.1 e.2) := by
  have backslash : '\\'.utf8Size = 1 := rfl
  have hpair : ∀ (start : Nat) (c : Char) (mid : List Char),
      start + byteSize ('\\' :: c :: mid) = start + 1 + c.utf8Size + byteSize mid := by
    intro start c mid
    simp only [byteSize_cons, backslash]
    omega
  induction start, mid using Literal.unknownEscapes.induct generalizing before with
  | case1 start c mid hc ih =>
    have hb : cs = (before ++ ['\\', c]) ++ mid ++ after := by simp [h]
    have hrest := ih hb (by simp [hs, backslash, Nat.add_assoc])
    rw [hpair, Literal.unknownEscapes, if_pos hc]
    exact ascends_lower hrest (by omega)
  | case2 start c mid hc ih =>
    have hb : cs = (before ++ ['\\', c]) ++ mid ++ after := by simp [h]
    have hrest := ih hb (by simp [hs, backslash, Nat.add_assoc])
    have hspan : Bounded cs ⟨start, start + 1 + c.utf8Size⟩ := by
      have hp : cs = before ++ ['\\', c] ++ (mid ++ after) := by simp [h]
      simpa [hs, byteSize_append, backslash, Nat.add_assoc] using bounded_piece hp
    have hd : Located cs Code.invalidEscape.phase (Lexeme.escapeDiagnostic start c) start :=
      located_single rfl rfl rfl hspan
    rw [hpair, Literal.unknownEscapes, if_neg hc]
    exact ⟨start, Nat.le_refl _, hd, ascends_lower hrest (by omega)⟩
  | case3 start c mid hc ih =>
    have hb : cs = (before ++ [c]) ++ mid ++ after := by simp [h]
    have hrest := ih hb (by simp [hs])
    rw [byteSize_cons, ← Nat.add_assoc, Literal.unknownEscapes]
    · exact ascends_lower hrest (Nat.le_add_right _ _)
    · exact hc
  | case4 => exact Nat.le_refl _

theorem lexeme_ascends {cs before after : List Char} {t : Token} (r : Lexeme.Reading)
    (h : cs = before ++ t.text ++ after) (ht : t.start = byteSize before) :
    Ascends cs .scan t.start t.stop (Lexeme.diagnostics t r) := by
  have hle : t.start ≤ t.stop := Nat.le_add_right _ _
  unfold Lexeme.diagnostics
  split
  · next f =>
    have hspan : Bounded cs t.span := by
      have hp := bounded_piece h
      rwa [byteSize_append, ← ht] at hp
    have hd : Located cs f.code.phase (f.diagnostic t) t.start := located_single rfl rfl rfl hspan
    have hf : f.code.phase = .scan := by cases f <;> rfl
    exact ascends_one (Nat.le_refl _) hle (hf ▸ hd)
  · exact escapes_ascend h ht
  · exact hle

/-- The scanner stands between two characters, and its reports ascend up to there. -/
structure Scanned (cs : List Char) (s : Scanner) : Prop where
  front : ∃ front, cs = front ++ s.rest ∧ s.offset = byteSize front
  reports : Ascends cs .scan 0 s.offset s.diagnostics

theorem next_scanned {cs : List Char} {s s' : Scanner} {t : Token} (hs : Scanned cs s)
    (h : s.next? = some (t, s')) : Scanned cs s' := by
  obtain ⟨hstart, -, hoff, hrest⟩ := next_cuts h
  obtain ⟨⟨front, hcs, hfront⟩, hreports⟩ := hs
  have hcut : cs = front ++ t.text ++ s'.rest := by rw [hcs, hrest, List.append_assoc]
  constructor
  · refine ⟨front ++ t.text, hcut, ?_⟩
    rw [hoff, Token.stop, hstart, hfront, byteSize_append]
  · obtain ⟨r, -, hr⟩ := next_reports h
    rw [hr, hoff]
    rw [← hstart] at hreports hfront
    exact ascends_append hreports (lexeme_ascends r hcut hfront)

theorem drain_scanned {cs : List Char} {s : Scanner} (hs : Scanned cs s) :
    Scanned cs s.drain.2 := by
  fun_induction Scanner.drain s with
  | case1 s h => exact hs
  | case2 s t s' h rest ih => exact ih (next_scanned hs h)

theorem tokenize_ascends (text : String) :
    ∃ hi, Ascends text.toList .scan 0 hi (tokenize text).2 := by
  have hs : Scanned text.toList (.ofText text) := ⟨⟨[], rfl, rfl⟩, Nat.le_refl _⟩
  exact ⟨_, (drain_scanned hs).reports⟩

/-- The tokens are the last ones of the text. -/
def Remaining (cs : List Char) (ts : List Token) : Prop :=
  ∃ front, cs = front ++ spelled ts ∧ Covers (byteSize front) ts (byteSize cs)

section
variable {cs : List Char} {ts us : List Token} {t : Token} {d : Diagnostic}

theorem remaining_tail (h : Remaining cs (t :: ts)) : Remaining cs ts := by
  obtain ⟨front, hcs, hcov⟩ := h
  obtain ⟨hstart, -, hrest⟩ := covers_cons.mp hcov
  refine ⟨front ++ t.text, by rw [hcs, spelled_cons, List.append_assoc], ?_⟩
  rwa [byteSize_append, ← hstart]

theorem remaining_suffix (h : Remaining cs (us ++ ts)) : Remaining cs ts := by
  induction us with
  | nil => exact h
  | cons u us ih => exact ih (remaining_tail h)

theorem remaining_boundary (h : Remaining cs ts) : Boundary cs (offsetAt (byteSize cs) ts) := by
  obtain ⟨front, hcs, hcov⟩ := h
  rw [offset_covers hcov]
  exact boundary_front hcs

theorem remaining_span (h : Remaining cs (t :: ts)) : Bounded cs t.span := by
  obtain ⟨front, hcs, hcov⟩ := h
  obtain ⟨hstart, -, -⟩ := covers_cons.mp hcov
  have hp : cs = front ++ t.text ++ spelled ts := by rw [hcs, spelled_cons, List.append_assoc]
  have hb := bounded_piece hp
  rwa [byteSize_append, ← hstart] at hb

theorem remaining_next (h : Remaining cs (t :: ts)) :
    offsetAt (byteSize cs) (t :: ts) ≤ offsetAt (byteSize cs) ts := by
  obtain ⟨front, hcs, hcov⟩ := h
  obtain ⟨hstart, -, hrest⟩ := covers_cons.mp hcov
  rw [offset_covers hrest]
  exact Nat.le_add_right _ _

theorem remaining_le (h : Remaining cs (us ++ ts)) :
    offsetAt (byteSize cs) (us ++ ts) ≤ offsetAt (byteSize cs) ts := by
  induction us with
  | nil => exact Nat.le_refl _
  | cons u us ih => exact (remaining_next h).trans (ih (remaining_tail h))

theorem bounded_empty {o : Nat} (h : Boundary cs o) : Bounded cs (.empty o) :=
  ⟨Nat.le_refl _, h, h⟩

theorem located_unclosed {o : Nat} {k : Code} {s : Span} {m m' : String}
    (hcode : d.code = some k)
    (hlabels : d.labels = [⟨.empty o, m, true⟩, ⟨s, m', false⟩]) (ho : Boundary cs o)
    (hs : Bounded cs s) : Located cs k.phase d o := by
  refine ⟨⟨k, hcode, rfl⟩, ⟨.empty o, by simp [Diagnostic.span?, hlabels], rfl⟩, ?_⟩
  rw [hlabels]
  simp [bounded_empty ho, hs]

end

theorem derives_remaining {cs : List Char} {size : Nat} {ts us : List Token} {xs : List Tree}
    {ds : List Diagnostic} (h : Derives size ts xs ds us) (hr : Remaining cs ts) :
    Remaining cs us ∧ offsetAt (byteSize cs) ts ≤ offsetAt (byteSize cs) us := by
  rw [derives_tokens h] at hr ⊢
  exact ⟨remaining_suffix hr, remaining_le hr⟩

section
variable {cs : List Char} {size : Nat} {ts us : List Token} {t : Token} {xs : List Tree}
  {d : Diagnostic} {ds : List Diagnostic}

theorem token_ascends {k : Code} (hk : k.phase = .parse) (code : d.code = some k)
    (span : d.span? = some t.span) (single : d.labels.length = 1)
    (hr : Remaining cs (t :: us ++ ts)) :
    Ascends cs .parse (offsetAt (byteSize cs) (t :: us ++ ts)) (offsetAt (byteSize cs) ts) [d] := by
  have hd := located_single code span single (remaining_span hr)
  rw [hk] at hd
  exact ascends_one (Nat.le_refl _) (remaining_le hr) hd

theorem inside_ascends (hr : Remaining cs (t :: ts))
    (h : Remaining cs ts →
      Ascends cs .parse (offsetAt (byteSize cs) ts) (offsetAt (byteSize cs) us) ds) :
    Ascends cs .parse (offsetAt (byteSize cs) (t :: ts)) (offsetAt (byteSize cs) us) ds :=
  ascends_lower (h (remaining_tail hr)) (remaining_next hr)

theorem unclosed_ascends {k : Code} {m m' : String} (hk : k.phase = .parse)
    (hr : Remaining cs (t :: ts)) (inside : Derives (byteSize cs) ts xs ds us)
    (h : Remaining cs ts →
      Ascends cs .parse (offsetAt (byteSize cs) ts) (offsetAt (byteSize cs) us) ds)
    (code : d.code = some k)
    (labels : d.labels =
      [⟨.empty (offsetAt (byteSize cs) us), m, true⟩, ⟨t.span, m', false⟩]) :
    Ascends cs .parse (offsetAt (byteSize cs) (t :: ts)) (offsetAt (byteSize cs) us)
      (ds ++ [d]) := by
  have hus := (derives_remaining inside (remaining_tail hr)).1
  have hd := located_unclosed code labels (remaining_boundary hus) (remaining_span hr)
  rw [hk] at hd
  exact ascends_append (inside_ascends hr h) (ascends_one (Nat.le_refl _) (Nat.le_refl _) hd)

end

theorem derives_ascends {cs : List Char} {ts us : List Token} {xs : List Tree}
    {ds : List Diagnostic} (h : Derives (byteSize cs) ts xs ds us) (hr : Remaining cs ts) :
    Ascends cs .parse (offsetAt (byteSize cs) ts) (offsetAt (byteSize cs) us) ds := by
  -- a case without a report still has to move forward, so that reports can be joined across it
  induction h with
  | nil ts => exact Nat.le_refl _
  | append first second ih ih' =>
    exact ascends_append (ih hr) (ih' (derives_remaining first hr).1)
  | token t ts plain => exact remaining_next hr
  | leaf kind t us ts | silent t us ts => exact remaining_le hr
  | rejected t us ts d fresh code span level single =>
    rcases code with code | code
    · exact token_ascends rfl code span single hr
    · exact token_ascends rfl code span single hr
  | missing ts d code span single =>
    have hd := located_single code span single (bounded_empty (remaining_boundary hr))
    exact ascends_one (Nat.le_refl _) (Nat.le_refl _) hd
  | deepValue t us ts d bracket code span single => exact token_ascends rfl code span single hr
  | arrayValue array kind shut ih => exact ih hr
  | definition kinds parts conforms ih => exact ih hr
  | closedArray _ inside _ _ ih | closedBlock _ _ inside _ _ ih =>
    have hu := (derives_remaining inside (remaining_tail hr)).1
    exact ascends_upper (inside_ascends hr ih) (remaining_next hu)
  | openArray _ inside _ ih => exact unclosed_ascends rfl hr inside ih rfl rfl
  | openBlock _ _ inside _ ih => exact unclosed_ascends rfl hr inside ih rfl rfl
  | connection first chain last _ _ _ _ _ _ ih ih' ih'' =>
    have hus := (derives_remaining first hr).1
    have hvs := (derives_remaining chain hus).1
    exact ascends_append (ih hr) (ascends_append (ih' hus) (ih'' hvs))

theorem outermost_remaining {cs : List Char} {size : Nat} {ts us : List Token} {xs : List Tree}
    {ds : List Diagnostic} (h : Outermost size ts xs ds us) (hr : Remaining cs ts) :
    Remaining cs us := by
  rw [outermost_tokens h] at hr
  exact remaining_suffix hr

theorem block_nonempty {size : Nat} {ts us : List Token} {x : Tree} {ds : List Diagnostic}
    (h : Derives size ts [x] ds us) (hk : x.isKind .subShapeDefinition = true) : ts ≠ [] := by
  have hkind : x.kind? = some .subShapeDefinition := by simpa [isKind] using hk
  rw [derives_tokens h]
  cases block_body h rfl hkind rfl with
  | closed => simp [tokensAll, tokens]
  | unclosed => simp [tokensAll, tokens]

theorem outermost_ascends {cs : List Char} {ts us : List Token} {xs : List Tree}
    {ds : List Diagnostic} (h : Outermost (byteSize cs) ts xs ds us) (hr : Remaining cs ts) :
    Ascends cs .parse (offsetAt (byteSize cs) ts) (offsetAt (byteSize cs) us) ds := by
  induction h with
  | piece derives => exact derives_ascends derives hr
  | append first second ih ih' =>
    exact ascends_append (ih hr) (ih' (outermost_remaining first hr))
  | stray t ts d brace code span single =>
    have hone : Remaining cs (t :: [] ++ ts) := hr
    exact token_ascends rfl code span single hone
  | @anonymous ts us x ds d block kind code span single =>
    have hds := derives_ascends block hr
    cases ts with
    | nil => exact absurd rfl (block_nonempty block kind)
    | cons t ts =>
      have hd := located_single code span single (remaining_span hr)
      exact ⟨t.start, Nat.le_refl _, hd, hds⟩

theorem document_ascends (text : String) :
    ∃ hi, Ascends text.toList .parse 0 hi
      (parseTokens text.utf8ByteSize (tokenize text).1).diagnostics := by
  obtain ⟨-, hd, -⟩ := Nesting.document_derives (tokenize text).1 text.utf8ByteSize
  have hr : Remaining text.toList (tokenize text).1 := by
    refine ⟨[], (tokenize_spells text).symm, ?_⟩
    rw [byteSize_toList]
    exact tokenize_covers text
  rw [← byteSize_toList] at hd
  have h := outermost_ascends hd hr
  rw [byteSize_toList, offset_covers (tokenize_covers text)] at h
  exact ⟨_, h⟩

end DiagramText.Ascent
