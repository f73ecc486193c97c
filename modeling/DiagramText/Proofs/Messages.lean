import DiagramText.Color.Reader
import DiagramText.Proofs.Construction
import DiagramText.Proofs.Ends
import DiagramText.Proofs.Listings
import DiagramText.Proofs.QuotedLiterals

/-!
# Messages on one line

What the scanner and the grammar say is on one line: they name kinds of tokens
and count levels, they quote a stray character by its number, and a string
whose escapes they repeat ends on its own line. The checks repeat words and
values of the document as they read, so their messages are on one line when
those are.
-/

set_option autoImplicit false

namespace DiagramText.Messages
open Text Lexeme Scanning Complaints Validation

def Unbroken (text : String) : Prop := '\n' ∉ text.toList

instance (text : String) : Decidable (Unbroken text) := inferInstanceAs (Decidable (¬_))

theorem unbroken_append {a b : String} : Unbroken (a ++ b) ↔ Unbroken a ∧ Unbroken b := by
  simp [Unbroken, not_or]

theorem unbroken_ofList {cs : List Char} : Unbroken (.ofList cs) ↔ '\n' ∉ cs := by
  simp [Unbroken]

theorem unbroken_nat (n : Nat) : Unbroken n.repr := (Listings.unquoted_number n).1

theorem unbroken_int (n : Int) : Unbroken (toString n) := by
  cases n with
  | ofNat n => exact unbroken_nat n
  | negSucc n => exact unbroken_append.mpr ⟨by decide, unbroken_nat (n + 1)⟩

theorem unbroken_intercalate {separator : String} {words : List String}
    (hs : Unbroken separator) (h : ∀ word ∈ words, Unbroken word) :
    Unbroken (separator.intercalate words) := by
  induction words with
  | nil => simp [Unbroken]
  | cons word words ih =>
    rw [List.forall_mem_cons] at h
    cases words with
    | nil => simpa using h.1
    | cons next words =>
      rw [String.intercalate_cons_cons]
      exact unbroken_append.mpr ⟨unbroken_append.mpr ⟨h.1, hs⟩, ih h.2⟩

theorem unbroken_describe (k : TokenKind) : Unbroken k.describe := by cases k <;> decide

theorem unbroken_wording {k : Code} {message : String} (h : Wording k message) :
    Unbroken message := by
  cases h with
  | unexpected k => exact unbroken_append.mpr ⟨by decide, unbroken_describe k⟩
  | before k => exact unbroken_append.mpr ⟨by decide, unbroken_describe k⟩
  | after k => exact unbroken_append.mpr ⟨by decide, unbroken_describe k⟩
  | deep =>
    exact unbroken_append.mpr ⟨unbroken_append.mpr ⟨by decide, unbroken_nat _⟩, by decide⟩
  | ended | array | block | anonymous => decide

theorem document_unbroken (c : Cursor) :
    ∀ d ∈ (Grammar.document c).diagnostics, Unbroken d.message := by
  intro d hd
  obtain ⟨-, k, -, hwords⟩ := Construction.document_complaints c d hd
  exact unbroken_wording hwords

theorem string_unbroken {t : Token} (h : ReadAs t (.ok .string)) : '\n' ∉ t.text := by
  obtain ⟨afterWord, unclosed, c, cs, hread, -, htext⟩ := h
  obtain ⟨hquote, hclosing⟩ := QuotedLiterals.read_string hread.symm
  have hc : c ≠ '\n' := (QuotedLiterals.quote_plain hquote).2
  rw [htext, List.mem_cons, not_or]
  exact ⟨hc.symm, Lines.quote_unbroken hc hclosing⟩

theorem escape_mem {start : Nat} {cs : List Char} {e : Nat × Char}
    (h : e ∈ Literal.unknownEscapes start cs) : e.2 ∈ cs := by
  fun_induction Literal.unknownEscapes start cs with
  | case1 start c cs rest hc ih => simp [ih h]
  | case2 start c cs rest hc ih =>
    rcases List.mem_cons.mp h with rfl | h
    · simp
    · simp [ih h]
  | case3 start c cs hne ih => simp [ih h]
  | case4 => simp at h

theorem unbroken_quoted (cs : List Char) : Unbroken (quoted cs) := by
  rw [quoted, unbroken_ofList]
  simpa using Listings.listChars_unbroken cs

theorem unbroken_fault (cs : List Char) (f : Fault) : Unbroken (f.message cs) := by
  cases f with
  | unterminatedString =>
    change Unbroken "unterminated string literal"
    decide
  | unterminatedComment =>
    change Unbroken "unterminated block comment"
    decide
  | strayCharacter =>
    change Unbroken ("unexpected character " ++ quoted cs)
    exact unbroken_append.mpr ⟨by decide, unbroken_quoted cs⟩

theorem lexeme_unbroken {t : Token} {r : Reading} (h : ReadAs t r) :
    ∀ d ∈ Lexeme.diagnostics t r, Unbroken d.message := by
  intro d hd
  unfold Lexeme.diagnostics at hd
  split at hd
  · next f =>
    obtain rfl : d = f.diagnostic t := by simpa using hd
    exact unbroken_fault t.text f
  · obtain ⟨e, he, rfl⟩ := List.mem_map.mp hd
    have hescape : '\n' ≠ e.2 := by
      intro hnewline
      exact string_unbroken h (hnewline ▸ escape_mem he)
    have hone : Unbroken (.ofList [e.2]) := unbroken_ofList.mpr (by simpa using hescape)
    exact unbroken_append.mpr ⟨unbroken_append.mpr ⟨by decide, hone⟩, by decide⟩
  · simp at hd

theorem parse_unbroken (text : String) :
    ∀ d ∈ (parse text).diagnostics, Unbroken d.message := by
  intro d hd
  rcases List.mem_append.mp hd with hd | hd
  · exact tokenize_reports (fun t r h => lexeme_unbroken h) text d hd
  · exact document_unbroken _ d hd

theorem mem_trim {c : Char} {cs : List Char} (h : c ∈ trim cs) : c ∈ cs := by
  rw [Ends.trim_blanks] at h
  exact Ends.stripped_mem h

theorem digits_unbroken (n : Nat) : '\n' ∉ Nat.toDigits 10 n := by
  rw [← Nat.toList_repr]
  exact unbroken_nat n

theorem unbroken_positional (n : Nat) (k : Int) : Unbroken (Shortest.positional n k) := by
  have hdigits := digits_unbroken n
  have hpadded (m : Nat) : '\n' ∉ List.replicate m '0' ++ Nat.toDigits 10 n := by
    simp [hdigits]
  unfold Shortest.positional
  dsimp only
  split
  · rw [unbroken_ofList]
    simp [hdigits]
  · refine unbroken_append.mpr ⟨unbroken_append.mpr ⟨?_, by decide⟩, ?_⟩
    · exact unbroken_ofList.mpr fun h => hpadded _ (List.mem_of_mem_take h)
    · exact unbroken_ofList.mpr fun h => hpadded _ (List.mem_of_mem_drop h)

theorem unbroken_float (x : Float32) : Unbroken (Shortest.display x) := by
  unfold Shortest.display
  dsimp only
  have hsign : Unbroken (if Rounding.single.signBit ≤ x.toBits.toNat then "-" else "") := by
    split <;> decide
  split
  · decide
  split
  · exact unbroken_append.mpr ⟨hsign, by decide⟩
  split
  · exact unbroken_append.mpr ⟨hsign, by decide⟩
  split
  · exact unbroken_append.mpr ⟨hsign, unbroken_positional _ _⟩
  · exact unbroken_append.mpr ⟨hsign, by decide⟩

variable {palette : Palette}

/-- What a palette says against a text is on one line. -/
def OneLined (palette : Palette) : Prop :=
  ∀ text reason, palette text = .error reason → Unbroken reason

theorem read_one_lined : OneLined Color.read := by
  intro text reason h
  have hfault (f : Color.Fault) : Unbroken f.message := by cases f <;> decide
  unfold Color.read at h
  split at h
  · split at h
    · cases h
    · obtain rfl : _ = reason := by simpa using h
      exact hfault _
  · obtain rfl : _ = reason := by simpa using h
    exact hfault _

theorem color_repeats {cs : List Char} {e : ColorError}
    (h : ColorValue.parse palette (.ofList cs) = .error e) :
    e.input = .ofList (trim cs) ∧ palette e.input = .error e.reason := by
  simp only [ColorValue.parse, String.toList_ofList] at h
  split at h
  · simp at h
  · unfold Color.parse at h
    split at h
    · simp [Except.map] at h
    · next reason hreason =>
      obtain rfl : _ = e := by simpa [Except.map] using h
      exact ⟨rfl, hreason⟩

theorem unbroken_color (hpalette : OneLined palette) {cs : List Char} {e : ColorError}
    (hcs : '\n' ∉ cs) (h : ColorValue.parse palette (.ofList cs) = .error e) :
    Unbroken e.message := by
  obtain ⟨htrimmed, hreason⟩ := color_repeats h
  have hinput : Unbroken e.input := by
    rw [htrimmed, unbroken_ofList]
    exact fun hmem => hcs (mem_trim hmem)
  change Unbroken ("invalid color `" ++ e.input ++ "`: " ++ e.reason)
  simp only [unbroken_append]
  exact ⟨⟨⟨by decide, hinput⟩, by decide⟩, hpalette _ _ hreason⟩

/-- The words that a rule offers. -/
def offered : ValueRule → List String
  | .oneOf words => words
  | .font => ValueRule.fonts
  | _ => []

theorem unbroken_offered (style : StyleAttribute) :
    ∀ word ∈ offered style.rule, Unbroken word := by
  cases style <;> decide

/-- What a rule says against a text. -/
inductive Refused (palette : Palette) (cs : List Char) : ValueRule → StyleFault → Prop where
  | floatRange (low high : Float32) :
      Refused palette cs (.floatRange low high) (.floatRange low high)
  | intRange (low high : Int) : Refused palette cs (.intRange low high) (.intRange low high)
  | boolean : Refused palette cs .boolean .boolean
  | color {e : ColorError} (error : ColorValue.parse palette (.ofList cs) = .error e) :
      Refused palette cs .color (.color e)
  | font : Refused palette cs .font (.font ValueRule.fonts)
  | oneOf (words : List String) : Refused palette cs (.oneOf words) (.oneOf words)

theorem check_refuses {rule : ValueRule} {cs : List Char} {fault : StyleFault}
    (h : rule.checkTrimmed palette cs = .error fault) : Refused palette cs rule fault := by
  unfold ValueRule.checkTrimmed at h
  cases rule <;> grind [Refused]

theorem unbroken_reason (hpalette : OneLined palette) {rule : ValueRule} {cs : List Char}
    {fault : StyleFault} (hwords : ∀ word ∈ offered rule, Unbroken word) (hcs : '\n' ∉ cs)
    (h : Refused palette cs rule fault) : Unbroken fault.reason := by
  have hlist : Unbroken (", ".intercalate (offered rule)) :=
    unbroken_intercalate (by decide) hwords
  cases h with
  | floatRange low high =>
    change Unbroken ("a float between " ++ Shortest.display low ++ " and " ++ Shortest.display high)
    simp only [unbroken_append]
    exact ⟨⟨⟨by decide, unbroken_float low⟩, by decide⟩, unbroken_float high⟩
  | intRange low high =>
    change Unbroken ("an integer between " ++ toString low ++ " and " ++ toString high)
    simp only [unbroken_append]
    exact ⟨⟨⟨by decide, unbroken_int low⟩, by decide⟩, unbroken_int high⟩
  | boolean => decide
  | @color e error =>
    change Unbroken ("a valid color: " ++ e.message)
    exact unbroken_append.mpr ⟨by decide, unbroken_color hpalette hcs error⟩
  | font =>
    change Unbroken ("a valid font: (" ++ ", ".intercalate ValueRule.fonts ++ ")")
    simp only [unbroken_append]
    exact ⟨⟨by decide, hlist⟩, by decide⟩
  | oneOf words =>
    change Unbroken ("one of (" ++ ", ".intercalate words ++ ")")
    simp only [unbroken_append]
    exact ⟨⟨by decide, hlist⟩, by decide⟩

theorem unbroken_refusal (hpalette : OneLined palette) {style : StyleAttribute} {value : String}
    {fault : StyleFault} (hvalue : Unbroken value) (h : style.check palette value = .error fault) :
    Unbroken (fault.message style.keyword) := by
  have hreason : Unbroken fault.reason :=
    unbroken_reason hpalette (unbroken_offered style) (fun hmem => hvalue (mem_trim hmem))
      (check_refuses h)
  have hkeyword : Unbroken style.keyword := by cases style <;> decide
  change Unbroken ("expected " ++ style.keyword ++ " to be " ++ fault.reason)
  simp only [unbroken_append]
  exact ⟨⟨⟨by decide, hkeyword⟩, by decide⟩, hreason⟩

/-- The words of a property's key, those of the keys around it, and its value as it reads are on
one line. -/
structure OneLine (owner : Owner) (property : Tree) : Prop where
  key : ∀ key, property.key? = some key →
    ∀ word ∈ key.segments ++ fullPath owner key, Unbroken word
  value : ∀ value, property.value? = some value → Unbroken value.cooked

theorem attribute_unbroken {path : List String} {word : String}
    (hpath : ∀ word ∈ path, Unbroken word) (h : styleAttribute? path = some word) :
    Unbroken word := by
  unfold styleAttribute? at h
  split at h
  · next first rest =>
    split at h
    · obtain rfl : ".".intercalate rest = word := by simpa using h
      exact unbroken_intercalate (by decide) fun w hw => hpath w (List.mem_cons_of_mem _ hw)
    · simp at h
  · simp at h

theorem finding_unbroken (hpalette : OneLined palette) {owner : Owner} {property : Tree}
    {d : Diagnostic} (h : Finding palette owner property d) (hline : OneLine owner property) :
    Unbroken d.message := by
  cases h with
  | keyword key_eq segments =>
    have hfirst := hline.key _ key_eq _ (List.mem_append_left _ (segments ▸ List.mem_cons_self))
    simp only [Diagnostic.coded, unbroken_append]
    exact ⟨⟨by decide, hfirst⟩, by decide⟩
  | styleWord key_eq path =>
    have hword := attribute_unbroken
      (fun word hw => hline.key _ key_eq word (List.mem_append_right _ hw)) path
    simp only [Diagnostic.coded, unbroken_append]
    exact ⟨⟨by decide, hword⟩, by decide⟩
  | styleValue value_eq refused => exact unbroken_refusal hpalette (hline.value _ value_eq) refused
  | shape value_eq sorts =>
    have hvalue := hline.value _ value_eq
    simp only [Diagnostic.coded, unbroken_append]
    refine ⟨⟨⟨⟨by decide, ?_⟩, by decide⟩, hvalue⟩, by decide⟩
    rcases sorts with rfl | rfl <;> decide

end DiagramText.Messages
