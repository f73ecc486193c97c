import DiagramText.Proofs.Lossless
import DiagramText.Tree.Listing

/-!
# Listings lose nothing

A listing of a tree has one line for each node and each token. Neither a kind
nor a span has a quote or a line break in it, and a quoted text has no line
break either, so the lines of a listing can be cut apart and the first quote
of a line starts the text of a token. Quoting is undone character by
character: no quoted character starts like another one. So the tokens of a
listing, and with them the text, can be told from the listing alone.
-/

set_option autoImplicit false

namespace DiagramText.Listings
open Text Scanning Layout DiagramText.Tree

def endsQuoted (c : Char) : Bool := c == '"' || c == '\n' || c == '}'

theorem digitChar_inside : ∀ n < 16, endsQuoted n.digitChar = false := by decide

theorem digitChar_injective : ∀ m < 16, ∀ n < 16, m.digitChar = n.digitChar → m = n := by decide

theorem digits_inside {b n : Nat} (hb : 1 < b) (hb' : b ≤ 16) :
    ∀ c ∈ Nat.toDigits b n, endsQuoted c = false := by
  induction n using Nat.strong_induction_on with
  | _ n ih =>
    intro c hc
    rw [Nat.toDigits_eq_if hb] at hc
    split at hc
    · next hlt =>
      obtain rfl : c = n.digitChar := by simpa using hc
      exact digitChar_inside _ (by omega)
    · next hlt =>
      rcases List.mem_append.mp hc with hc | hc
      · exact ih (n / b) (Nat.div_lt_self (by omega) hb) c hc
      · obtain rfl : c = (n % b).digitChar := by simpa using hc
        have hmod := Nat.mod_lt n (show 0 < b by omega)
        exact digitChar_inside _ (by omega)

theorem hexDigits_injective {m n : Nat} (h : hexDigits m = hexDigits n) : m = n := by
  unfold hexDigits at h
  induction m using Nat.strong_induction_on generalizing n with
  | _ m ih =>
    have hlength (k : Nat) : 0 < (Nat.toDigits 16 k).length := Nat.length_toDigits_pos
    rw [Nat.toDigits_eq_if (by decide), Nat.toDigits_eq_if (b := 16) (n := n) (by decide)] at h
    by_cases hm : m < 16 <;> by_cases hn : n < 16
    · simp only [hm, hn, if_true, List.cons.injEq, and_true] at h
      exact digitChar_injective m hm n hn h
    · have hl := congrArg List.length h
      have hp := hlength (n / 16)
      simp only [hm, hn, if_true, if_false, List.length_append, List.length_singleton] at hl
      omega
    · have hl := congrArg List.length h
      have hp := hlength (m / 16)
      simp only [hm, hn, if_true, if_false, List.length_append, List.length_singleton] at hl
      omega
    · simp only [hm, hn, if_false] at h
      obtain ⟨hfront, hlast⟩ := List.append_inj' h rfl
      have hdiv := ih (m / 16) (by omega) hfront
      have hmod := digitChar_injective _ (Nat.mod_lt m (by decide)) _ (Nat.mod_lt n (by decide))
        (List.head_eq_of_cons_eq hlast)
      omega

theorem cut_unique {a : Char} {xs ys us vs : List Char} (hx : a ∉ xs) (hy : a ∉ ys)
    (h : xs ++ a :: us = ys ++ a :: vs) : xs = ys ∧ us = vs := by
  induction xs generalizing ys with
  | nil =>
    cases ys with
    | nil => exact ⟨rfl, List.tail_eq_of_cons_eq h⟩
    | cons y ys =>
      have hhead : a = y := List.head_eq_of_cons_eq h
      exact absurd (hhead ▸ List.mem_cons_self) hy
  | cons x xs ih =>
    cases ys with
    | nil =>
      have hhead : x = a := List.head_eq_of_cons_eq h
      exact absurd (hhead ▸ List.mem_cons_self) hx
    | cons y ys =>
      obtain ⟨rfl, htail⟩ := List.cons.inj h
      obtain ⟨rfl, hrest⟩ := ih (List.not_mem_of_not_mem_cons hx)
        (List.not_mem_of_not_mem_cons hy) htail
      exact ⟨rfl, hrest⟩

def named? (e : Char) : Option Char :=
  if e = '0' then some '\x00'
  else if e = 't' then some '\t'
  else if e = 'r' then some '\r'
  else if e = 'n' then some '\n'
  else if e = '"' ∨ e = '\\' then some e
  else none

/-- A character is listed by a name, by its number, or as itself. -/
inductive ListedChar (c : Char) : List Char → Prop where
  | named {e : Char} (name : named? e = some c) : ListedChar c ['\\', e]
  | numbered : ListedChar c ('\\' :: 'u' :: '{' :: (hexDigits c.toNat ++ ['}']))
  | itself (plain : c ≠ '\\' ∧ c ≠ '\n') : ListedChar c [c]

theorem listChar_listed (c : Char) : ListedChar c (listChar c) := by
  unfold listChar
  by_cases h0 : c = '\x00'
  · simpa [h0] using ListedChar.named (c := '\x00') (e := '0') rfl
  by_cases ht : c = '\t'
  · simpa [ht] using ListedChar.named (c := '\t') (e := 't') rfl
  by_cases hr : c = '\r'
  · simpa [hr] using ListedChar.named (c := '\r') (e := 'r') rfl
  by_cases hn : c = '\n'
  · simpa [hn] using ListedChar.named (c := '\n') (e := 'n') rfl
  by_cases hq : c = '"'
  · simpa [hq] using ListedChar.named (c := '"') (e := '"') rfl
  by_cases hb : c = '\\'
  · simpa [hb] using ListedChar.named (c := '\\') (e := '\\') rfl
  simp only [h0, ht, hr, hn, hq, hb, if_false]
  split
  · exact .numbered
  · exact .itself ⟨hb, hn⟩

theorem listed_unique {c d : Char} {xs ys us vs : List Char} (hc : ListedChar c xs)
    (hd : ListedChar d ys)
    (h : xs ++ us = ys ++ vs) : c = d ∧ us = vs := by
  have hunnamed : named? 'u' = none := rfl
  cases hc with
  | @named e name =>
    cases hd with
    | @named e' name' =>
      obtain ⟨rfl, rfl⟩ : e = e' ∧ us = vs := by simpa using h
      exact ⟨Option.some.inj (name.symm.trans name'), rfl⟩
    | numbered =>
      obtain ⟨rfl, -⟩ : e = 'u' ∧ _ := by simpa using h
      simp [hunnamed] at name
    | itself plain =>
      obtain ⟨rfl, -⟩ : '\\' = d ∧ _ := by simpa using h
      exact absurd rfl plain.1
  | numbered =>
    cases hd with
    | @named e name =>
      obtain ⟨rfl, -⟩ : 'u' = e ∧ _ := by simpa using h
      simp [hunnamed] at name
    | numbered =>
      have hbrace (n : Nat) : '}' ∉ hexDigits n := fun hmem =>
        absurd (digits_inside (by decide) (by decide) _ hmem) (by decide)
      have hcut : hexDigits c.toNat ++ '}' :: us = hexDigits d.toNat ++ '}' :: vs := by
        simpa using h
      obtain ⟨hdigits, hrest⟩ := cut_unique (hbrace _) (hbrace _) hcut
      exact ⟨Char.toNat_inj.mp (hexDigits_injective hdigits), hrest⟩
    | itself plain =>
      obtain ⟨rfl, -⟩ : '\\' = d ∧ _ := by simpa using h
      exact absurd rfl plain.1
  | itself plain =>
    cases hd with
    | named name =>
      obtain ⟨rfl, -⟩ : c = '\\' ∧ _ := by simpa using h
      exact absurd rfl plain.1
    | numbered =>
      obtain ⟨rfl, -⟩ : c = '\\' ∧ _ := by simpa using h
      exact absurd rfl plain.1
    | itself => simpa using h

theorem listed_inside {c : Char} {xs : List Char} (h : ListedChar c xs) : '\n' ∉ xs := by
  cases h with
  | @named e name =>
    have he : e ≠ '\n' := by
      rintro rfl
      simp [named?] at name
    simpa using he.symm
  | numbered =>
    have hdigits : '\n' ∉ hexDigits c.toNat := fun hmem =>
      absurd (digits_inside (by decide) (by decide) _ hmem) (by decide)
    simpa using hdigits
  | itself plain => simpa using plain.2.symm

theorem listChars_unbroken (cs : List Char) : '\n' ∉ listChars cs := by
  induction cs with
  | nil => simp [listChars]
  | cons c cs ih => simp [listChars, ih, listed_inside (listChar_listed c)]

theorem listed_length {c : Char} {xs : List Char} (h : ListedChar c xs) : 0 < xs.length := by
  cases h <;> simp

theorem listChars_injective {cs ds : List Char} (h : listChars cs = listChars ds) : cs = ds := by
  have hlength (c : Char) (cs : List Char) : 0 < (listChars (c :: cs)).length := by
    rw [listChars, List.length_append]
    have hpos := listed_length (listChar_listed c)
    omega
  induction cs generalizing ds with
  | nil =>
    cases ds with
    | nil => rfl
    | cons d ds => exact absurd (congrArg List.length h) (hlength d ds).ne
  | cons c cs ih =>
    cases ds with
    | nil => exact absurd (congrArg List.length h) (hlength c cs).ne'
    | cons d ds =>
      obtain ⟨rfl, hrest⟩ := listed_unique (listChar_listed c) (listChar_listed d) h
      rw [ih hrest]

theorem quoted_injective : Function.Injective quoted := by
  intro cs ds h
  apply listChars_injective
  have hrow := String.ofList_injective h
  simpa using hrow

/-- Neither a line break nor a quote stands in the text. -/
def Unquoted (text : String) : Prop := '\n' ∉ text.toList ∧ '"' ∉ text.toList

theorem unquoted_append {a b : String} (ha : Unquoted a) (hb : Unquoted b) : Unquoted (a ++ b) := by
  simp only [Unquoted, String.toList_append, List.mem_append, not_or]
  exact ⟨⟨ha.1, hb.1⟩, ha.2, hb.2⟩

theorem unquoted_indent (depth : Nat) : Unquoted (indent depth) := by
  induction depth with
  | zero => simp [Unquoted, indent]
  | succ n ih => exact unquoted_append (by simp [Unquoted]) ih

theorem unquoted_number (n : Nat) : Unquoted n.repr := by
  rw [Unquoted, Nat.toList_repr]
  constructor <;> intro hmem
  · exact absurd (digits_inside (by decide) (by decide) _ hmem) (by decide)
  · exact absurd (digits_inside (by decide) (by decide) _ hmem) (by decide)

theorem unquoted_span (s : Span) : Unquoted s.display :=
  unquoted_append (unquoted_append (unquoted_number s.start) (by simp [Unquoted]))
    (unquoted_number s.stop)

theorem unquoted_token (k : TokenKind) : Unquoted k.name := by
  cases k <;> simp [Unquoted, TokenKind.name]

theorem unquoted_node (k : NodeKind) : Unquoted k.name := by
  cases k <;> simp [Unquoted, NodeKind.name]

def caption (depth : Nat) (t : Token) : String :=
  indent depth ++ (t.kind.name ++ "@" ++ t.span.display ++ " ")

theorem unquoted_caption (depth : Nat) (t : Token) : Unquoted (caption depth t) := by
  apply unquoted_append (unquoted_indent depth)
  apply unquoted_append
    (unquoted_append (unquoted_append (unquoted_token t.kind) _) (unquoted_span t.span)) <;>
    simp [Unquoted]

theorem unquoted_reference (depth : Nat) (k : NodeKind) (s : Nat) (cs : List Tree) :
    Unquoted (indent depth ++ reference (.node k s cs)) := by
  apply unquoted_append (unquoted_indent depth)
  exact unquoted_append (unquoted_append (unquoted_node k) (by simp [Unquoted])) (unquoted_span _)

theorem token_line (depth : Nat) (t : Token) :
    indent depth ++ t.display = caption depth t ++ quoted t.text := by
  simp only [caption, Token.display, String.append_assoc]

/-- What stands on a line from its first quote on. -/
def shown (line : String) : List Char := line.toList.dropWhile (· != '"')

theorem shown_unquoted {a : String} (h : Unquoted a) (b : String) : shown (a ++ b) = shown b := by
  rw [shown, shown, String.toList_append, List.dropWhile_append_of_pos]
  intro c hc
  rw [bne_iff_ne]
  rintro rfl
  exact h.2 hc

theorem shown_quoted (cs : List Char) : shown (quoted cs) = (quoted cs).toList := by
  simp [shown, quoted]

theorem listing_length (depth : Nat) (xs : List Tree) :
    (listingAll depth xs).length = (nodesAll xs).length + (tokensAll xs).length := by
  induction xs using forest_induction generalizing depth with
  | nil => rfl
  | token t xs ih =>
    have h := ih depth
    simp only [listingAll, listingAt, nodesAll, nodes, tokensAll, tokens, List.length_append,
      List.length_singleton, List.length_nil]
    omega
  | node k s cs xs ihc ih =>
    have hc := ihc (depth + 1)
    have h := ih depth
    simp only [listingAll, listingAt, nodesAll, nodes, tokensAll, tokens, List.length_append,
      List.length_cons]
    omega

theorem listing_unbroken (depth : Nat) (xs : List Tree) :
    ∀ line ∈ listingAll depth xs, '\n' ∉ line.toList := by
  induction xs using forest_induction generalizing depth with
  | nil => simp [listingAll]
  | token t xs ih =>
    intro line hline
    rcases List.mem_append.mp hline with hline | hline
    · obtain rfl : line = indent depth ++ t.display := by simpa [listingAt] using hline
      rw [token_line, String.toList_append, List.mem_append, not_or]
      exact ⟨(unquoted_caption depth t).1, by simpa [quoted] using listChars_unbroken t.text⟩
    · exact ih depth line hline
  | node k s cs xs ihc ih =>
    intro line hline
    rcases List.mem_append.mp hline with hline | hline
    · rcases List.mem_cons.mp hline with rfl | hline
      · exact (unquoted_reference depth k s cs).1
      · exact ihc (depth + 1) line hline
    · exact ih depth line hline

theorem listing_shows (depth : Nat) (xs : List Tree) :
    ((listingAll depth xs).map shown).filter (· ≠ []) =
      (tokensAll xs).map fun t => (quoted t.text).toList := by
  induction xs using forest_induction generalizing depth with
  | nil => rfl
  | token t xs ih =>
    have hline : shown (indent depth ++ t.display) = (quoted t.text).toList := by
      rw [token_line, shown_unquoted (unquoted_caption depth t), shown_quoted]
    have hne : (quoted t.text).toList ≠ [] := by simp [quoted]
    rw [listingAll, listingAt, tokensAll, tokens, List.singleton_append, List.singleton_append,
      List.map_cons, List.map_cons, hline, List.filter_cons_of_pos (by simpa using hne), ih]
  | node k s cs xs ihc ih =>
    have hline : shown (indent depth ++ reference (.node k s cs)) = [] := by
      rw [← String.append_empty (s := _ ++ _), shown_unquoted (unquoted_reference depth k s cs)]
      rfl
    rw [listingAll, listingAt, tokensAll, tokens, List.map_append, List.map_cons, hline,
      List.cons_append, List.filter_cons_of_neg (by simp), List.filter_append, ihc, ih,
      List.map_append]

theorem lines_unique {ls ms : List (List Char)} (hl : ∀ l ∈ ls, '\n' ∉ l)
    (hm : ∀ l ∈ ms, '\n' ∉ l)
    (h : ls.flatMap (· ++ ['\n']) = ms.flatMap (· ++ ['\n'])) : ls = ms := by
  induction ls generalizing ms with
  | nil =>
    cases ms with
    | nil => rfl
    | cons m ms => simp at h
  | cons l ls ih =>
    cases ms with
    | nil => simp at h
    | cons m ms =>
      rw [List.forall_mem_cons] at hl hm
      simp only [List.flatMap_cons, List.append_assoc, List.singleton_append] at h
      obtain ⟨rfl, hrest⟩ := cut_unique hl.1 hm.1 h
      rw [ih hl.2 hm.2 hrest]

/-- The lines of a tree's listing, each as its characters. -/
def rows (t : Tree) : List (List Char) := t.listing.map String.toList

theorem dump_rows (t : Tree) : t.dump.toList = (rows t).flatMap (· ++ ['\n']) := by
  simp [dump, rows, String.toList_join, List.flatMap_map]

theorem rows_unbroken (t : Tree) : ∀ l ∈ rows t, '\n' ∉ l := by
  intro l hl
  obtain ⟨line, hline, rfl⟩ := List.mem_map.mp hl
  apply listing_unbroken 0 [t] line
  rwa [listingAll, listingAll, List.append_nil]

theorem rows_length (t : Tree) : (rows t).length = t.nodes.length + t.tokens.length := by
  have h := listing_length 0 [t]
  simp only [listingAll, nodesAll, tokensAll, List.append_nil] at h
  rw [rows, List.length_map]
  exact h

theorem dump_texts {t u : Tree} (h : t.dump = u.dump) :
    t.tokens.map (·.text) = u.tokens.map (·.text) := by
  have hrows : rows t = rows u := by
    apply lines_unique (rows_unbroken t) (rows_unbroken u)
    rw [← dump_rows, ← dump_rows, h]
  have hlisting : t.listing = u.listing :=
    List.map_injective_iff.mpr (fun _ _ => String.toList_injective) hrows
  have hshown (x : Tree) : (x.listing.map shown).filter (· ≠ []) =
      (x.tokens.map (·.text)).map fun cs => (quoted cs).toList := by
    have hx := listing_shows 0 [x]
    simp only [listingAll, tokensAll, List.append_nil] at hx
    rw [List.map_map]
    exact hx
  have hquoted : Function.Injective fun cs : List Char => (quoted cs).toList :=
    fun _ _ hq => quoted_injective (String.toList_injective hq)
  apply List.map_injective_iff.mpr hquoted
  rw [← hshown, ← hshown, hlisting]

/-- A listing has a line for each node and token, and no two texts have the same listing. -/
theorem parse_listing :
    (∀ text, ∃ lines : List (List Char),
      (parse text).tree.dump.toList = lines.flatMap (· ++ ['\n']) ∧ (∀ l ∈ lines, '\n' ∉ l) ∧
        lines.length = (parse text).nodeCount + (parse text).tree.tokens.length) ∧
    Function.Injective fun text => (parse text).tree.dump := by
  constructor
  · intro text
    exact ⟨rows (parse text).tree, dump_rows _, rows_unbroken _, rows_length _⟩
  · intro t u h
    have hspell (text : String) :
        ((parse text).tree.tokens.map (·.text)).flatten = text.toList := by
      obtain ⟨-, -, htokens⟩ := Lossless.document_placed text
      rw [← tokenize_spells text, ← htokens]
      rfl
    apply String.toList_injective
    rw [← hspell t, ← hspell u, dump_texts h]

end DiagramText.Listings
