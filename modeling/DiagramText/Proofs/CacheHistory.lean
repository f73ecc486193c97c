import DiagramText.Color.Reader
import DiagramText.Session
import Mathlib.Data.List.Induction

/-!
# Histories of a session

A session answers calls for analyses, and documents are dropped from its cache
one by one or all at once. A history is the list of these steps, each with a
mark. A call that computes makes a new result, and the mark of the call stays
with the result, so that two results are told apart also where they are equal.

What the cache holds for a document is decided by the last step that touches
the document. From this follow, for every history, what a call answers, whether
it computes, whose result it gives, how many documents are held, and that a
step on one document is not seen on another.
-/

set_option autoImplicit false

namespace DiagramText.CacheHistory

inductive Step
  | analyze (document text : String)
  | remove (document : String)
  | clear

def Step.Touches (document : String) : Step → Prop
  | .analyze d _ => d = document
  | .remove d => d = document
  | .clear => True

def Step.Drops (document : String) : Step → Prop
  | .analyze _ _ => False
  | .remove d => d = document
  | .clear => True

def Step.text? : Step → Option String
  | .analyze _ t => some t
  | .remove _ => none
  | .clear => none

variable {ι α δ : Type} [DecidableEq δ]

def texts (history : List (ι × Step)) : List String := history.filterMap (·.2.text?)

/-- Texts with the same digest are the same. -/
def Separates (digest : String → δ) (known : List String) : Prop :=
  ∀ a ∈ known, ∀ b ∈ known, digest a = digest b → a = b

/-- The call is the last step that touches the document; `before` is what preceded it. -/
def Latest (history : List (ι × Step)) (document : String) (before : List (ι × Step)) (i : ι)
    (text : String) : Prop :=
  ∃ after, history = before ++ (i, .analyze document text) :: after ∧
    ∀ x ∈ after, ¬ x.2.Touches document

/-- The document has been analysed since it was dropped last. -/
def Kept (history : List (ι × Step)) (document : String) : Prop :=
  ∃ before i text after, history = before ++ (i, .analyze document text) :: after ∧
    ∀ x ∈ after, ¬ x.2.Drops document

def act (palette : Palette) (digest : String → δ) (s : Session) : Step → Session
  | .analyze d t => { s with cache := (s.analyzeBy palette digest d t).cache }
  | .remove d => { s with cache := s.cache.remove d }
  | .clear => { s with cache := s.cache.clear }

def session (palette : Palette) (digest : String → δ) (checks : Checks) (steps : List Step) :
    Session :=
  steps.foldl (act palette digest) { checks }

def advance (digest : String → δ) (compute : ι → String → α) (c : Cache α) : ι × Step → Cache α
  | (i, .analyze d t) => (c.getBy digest d t (compute i)).cache
  | (_, .remove d) => c.remove d
  | (_, .clear) => c.clear

def run (digest : String → δ) (compute : ι → String → α) (history : List (ι × Step)) : Cache α :=
  history.foldl (advance digest compute) {}

/-- The answer to a call after a history. -/
def call (digest : String → δ) (compute : ι → String → α) (history : List (ι × Step)) (i : ι)
    (document text : String) : Cache.Answer α :=
  (run digest compute history).getBy digest document text (compute i)

theorem find_remove_self (c : Cache α) (d : String) : (c.remove d).find? d = none := by
  rw [Cache.find?, Cache.remove, List.lookup_eq_none_iff]
  intro x hx
  have h : x.1 ≠ d := by simpa using (List.mem_filter.mp hx).2
  simpa using Ne.symm h

theorem find_remove_other (c : Cache α) {d d' : String} (h : d' ≠ d) :
    (c.remove d).find? d' = c.find? d' := by
  obtain ⟨entries⟩ := c
  show (entries.filter (·.1 != d)).lookup d' = entries.lookup d'
  induction entries with
  | nil => rfl
  | cons x xs ih =>
    obtain ⟨e, y⟩ := x
    by_cases he : e = d
    · subst he
      rw [List.filter_cons_of_neg (by simp), ih, List.lookup_cons, beq_false_of_ne h]
    · rw [List.filter_cons_of_pos (by simpa using he), List.lookup_cons, List.lookup_cons, ih]

theorem find_insert_self (c : Cache α) (d t : String) (r : α) :
    (c.insert d t r).find? d = some (t, r) := by
  simp [Cache.find?, Cache.insert]

theorem find_insert_other (c : Cache α) {d d' : String} (t : String) (r : α) (h : d' ≠ d) :
    (c.insert d t r).find? d' = c.find? d' := by
  rw [← find_remove_other c h]
  simp [Cache.find?, Cache.insert, List.lookup_cons, beq_false_of_ne h]

theorem getBy_hit (digest : String → δ) (c : Cache α) {d t kept : String} {r : α}
    (compute : String → α) (hf : c.find? d = some (kept, r)) (h : digest kept = digest t) :
    c.getBy digest d t compute = ⟨r, false, c⟩ := by
  simp only [Cache.getBy, hf, if_pos h]

theorem getBy_miss (digest : String → δ) (c : Cache α) {d t : String} (compute : String → α)
    (h : ∀ kept r, c.find? d = some (kept, r) → digest kept ≠ digest t) :
    c.getBy digest d t compute = ⟨compute t, true, c.insert d t (compute t)⟩ := by
  unfold Cache.getBy
  split
  · next kept r hf => rw [if_neg (h kept r hf)]
  · rfl

theorem getBy_cases (digest : String → δ) (c : Cache α) (d t : String) (compute : String → α) :
    (∃ kept r, c.find? d = some (kept, r) ∧ digest kept = digest t ∧
      c.getBy digest d t compute = ⟨r, false, c⟩) ∨
    ((∀ kept r, c.find? d = some (kept, r) → digest kept ≠ digest t) ∧
      c.getBy digest d t compute = ⟨compute t, true, c.insert d t (compute t)⟩) := by
  by_cases h : ∃ kept r, c.find? d = some (kept, r) ∧ digest kept = digest t
  · obtain ⟨kept, r, hf, hd⟩ := h
    exact .inl ⟨kept, r, hf, hd, getBy_hit digest c compute hf hd⟩
  · have hm : ∀ kept r, c.find? d = some (kept, r) → digest kept ≠ digest t :=
      fun kept r hf hd => h ⟨kept, r, hf, hd⟩
    exact .inr ⟨hm, getBy_miss digest c compute hm⟩

theorem find_getBy_self (digest : String → δ) (c : Cache α) (d t : String) (compute : String → α)
    (h : ∀ kept r, c.find? d = some (kept, r) → digest kept = digest t → kept = t) :
    (c.getBy digest d t compute).cache.find? d =
      some (t, (c.getBy digest d t compute).result) := by
  obtain ⟨kept, r, hf, hd, e⟩ | ⟨-, e⟩ := getBy_cases digest c d t compute
  · rw [e, ← h kept r hf hd]
    exact hf
  · rw [e]
    exact find_insert_self c d t _

theorem find_getBy_other (digest : String → δ) (c : Cache α) {d d' : String} (t : String)
    (compute : String → α) (h : d' ≠ d) :
    (c.getBy digest d t compute).cache.find? d' = c.find? d' := by
  obtain ⟨_, _, _, _, e⟩ | ⟨-, e⟩ := getBy_cases digest c d t compute
  · rw [e]
  · rw [e]
    exact find_insert_other c t _ h

theorem getBy_agree (digest : String → δ) {c c' : Cache α} {d : String} (t : String)
    (compute : String → α) (h : c.find? d = c'.find? d) :
    (c.getBy digest d t compute).result = (c'.getBy digest d t compute).result ∧
      (c.getBy digest d t compute).computed = (c'.getBy digest d t compute).computed ∧
      (c.getBy digest d t compute).cache.find? d =
        (c'.getBy digest d t compute).cache.find? d := by
  obtain ⟨kept, r, hf, hd, e⟩ | ⟨hm, e⟩ := getBy_cases digest c d t compute
  · rw [e, getBy_hit digest c' compute (h ▸ hf) hd]
    exact ⟨rfl, rfl, h⟩
  · rw [e, getBy_miss digest c' compute (h ▸ hm)]
    exact ⟨rfl, rfl, by rw [find_insert_self, find_insert_self]⟩

section
variable (digest : String → δ) (compute : ι → String → α)

theorem run_append (past rest : List (ι × Step)) :
    run digest compute (past ++ rest) =
      rest.foldl (advance digest compute) (run digest compute past) :=
  List.foldl_append ..

theorem run_snoc (past : List (ι × Step)) (x : ι × Step) :
    run digest compute (past ++ [x]) = advance digest compute (run digest compute past) x :=
  run_append digest compute past [x]

theorem advance_untouched (c : Cache α) {d : String} {x : ι × Step} (h : ¬ x.2.Touches d) :
    (advance digest compute c x).find? d = c.find? d := by
  obtain ⟨i, step⟩ := x
  cases step with
  | analyze e t => exact find_getBy_other digest c t _ (Ne.symm h)
  | remove e => exact find_remove_other c (Ne.symm h)
  | clear => exact absurd trivial h

theorem foldl_untouched (rest : List (ι × Step)) (c : Cache α) {d : String}
    (h : ∀ x ∈ rest, ¬ x.2.Touches d) :
    (rest.foldl (advance digest compute) c).find? d = c.find? d := by
  induction rest generalizing c with
  | nil => rfl
  | cons x xs ih =>
    rw [List.foldl_cons, ih _ fun y hy => h y (List.mem_cons_of_mem x hy)]
    exact advance_untouched digest compute c (h x List.mem_cons_self)

theorem advance_dropped (c : Cache α) {d : String} {x : ι × Step} (h : x.2.Drops d) :
    (advance digest compute c x).find? d = none := by
  obtain ⟨i, step⟩ := x
  cases step with
  | analyze e t => exact h.elim
  | remove e => exact h ▸ find_remove_self c e
  | clear => rfl

theorem foldl_agree (rest : List (ι × Step)) {c c' : Cache α} {d : String}
    (h : c.find? d = c'.find? d) :
    (rest.foldl (advance digest compute) c).find? d =
      (rest.foldl (advance digest compute) c').find? d := by
  induction rest generalizing c c' with
  | nil => exact h
  | cons x xs ih =>
    apply ih
    by_cases ht : x.2.Touches d
    · obtain ⟨i, step⟩ := x
      cases step with
      | analyze e t =>
        obtain rfl : e = d := ht
        exact (getBy_agree digest t (compute i) h).2.2
      | remove e =>
        have hx : (Step.remove e).Drops d := ht
        exact (advance_dropped digest compute c hx).trans
          (advance_dropped digest compute c' hx).symm
      | clear => rfl
    · rw [advance_untouched digest compute c ht, advance_untouched digest compute c' ht, h]

/-- Every result was computed by some call from the text it is held with. -/
def Computed (compute : ι → String → α) (known : List String) (c : Cache α) : Prop :=
  ∀ d kept r, c.find? d = some (kept, r) → kept ∈ known ∧ ∃ i, r = compute i kept

variable {digest compute}

theorem insert_computed {known : List String} {c : Cache α} (h : Computed compute known c)
    (i : ι) (d t : String) (ht : t ∈ known) :
    Computed compute known (c.insert d t (compute i t)) := by
  intro d' kept r hf
  by_cases hd : d' = d
  · subst hd
    rw [find_insert_self] at hf
    cases hf
    exact ⟨ht, i, rfl⟩
  · rw [find_insert_other c t _ hd] at hf
    exact h d' kept r hf

theorem advance_computed {known : List String} {c : Cache α} (h : Computed compute known c)
    (x : ι × Step) (hx : ∀ t, x.2.text? = some t → t ∈ known) :
    Computed compute known (advance digest compute c x) := by
  obtain ⟨i, step⟩ := x
  cases step with
  | analyze d t =>
    show Computed compute known (c.getBy digest d t (compute i)).cache
    obtain ⟨_, _, _, _, e⟩ | ⟨-, e⟩ := getBy_cases digest c d t (compute i)
    · rw [e]
      exact h
    · rw [e]
      exact insert_computed h i d t (hx t rfl)
  | remove d =>
    intro d' kept r hf
    by_cases hd : d' = d
    · subst hd
      simp [advance, find_remove_self] at hf
    · exact h d' kept r ((find_remove_other c hd).symm.trans hf)
  | clear =>
    intro d' kept r hf
    cases hf

theorem foldl_computed {known : List String} (rest : List (ι × Step)) {c : Cache α}
    (h : Computed compute known c) (hr : ∀ t ∈ texts rest, t ∈ known) :
    Computed compute known (rest.foldl (advance digest compute) c) := by
  induction rest generalizing c with
  | nil => exact h
  | cons x xs ih =>
    have hx : ∀ t, x.2.text? = some t → t ∈ known := fun t ht =>
      hr t (List.mem_filterMap.mpr ⟨x, List.mem_cons_self, ht⟩)
    have hxs : ∀ t ∈ texts xs, t ∈ known := fun t ht => by
      obtain ⟨y, hy, hyt⟩ := List.mem_filterMap.mp ht
      exact hr t (List.mem_filterMap.mpr ⟨y, List.mem_cons_of_mem x hy, hyt⟩)
    exact ih (advance_computed h x hx) hxs

theorem run_computed {known : List String} (history : List (ι × Step))
    (h : ∀ t ∈ texts history, t ∈ known) :
    Computed compute known (run digest compute history) :=
  foldl_computed history (fun _ _ _ hf => by cases hf) h

end

section
variable (digest : String → δ) (compute : ι → String → α) (i : ι)
  {history before : List (ι × Step)} {d t kept : String} {j : ι}

omit [DecidableEq δ] in
theorem separates_history (hd : Separates digest (t :: texts history)) :
    Separates digest (texts history) :=
  fun a ha b hb => hd a (.tail t ha) b (.tail t hb)

theorem latest_texts (h : Latest history d before j kept) :
    kept ∈ texts history ∧ ∀ a ∈ texts before, a ∈ texts history := by
  obtain ⟨after, rfl, -⟩ := h
  constructor
  · simp [texts, List.filterMap_append, Step.text?]
  · intro a ha
    simp only [texts, List.filterMap_append, List.mem_append]
    exact .inl ha

theorem find_latest (hd : Separates digest (texts history)) (h : Latest history d before j kept) :
    (run digest compute history).find? d =
      some (kept, (call digest compute before j d kept).result) := by
  have ⟨hk, hb⟩ := latest_texts h
  obtain ⟨after, rfl, hu⟩ := h
  rw [run_append, List.foldl_cons, foldl_untouched digest compute after _ hu]
  apply find_getBy_self
  intro old r hf
  exact hd old (run_computed before hb d old r hf).1 kept hk

theorem latest_snoc (h : Latest history d before j kept) {x : ι × Step} (hx : ¬ x.2.Touches d) :
    Latest (history ++ [x]) d before j kept := by
  obtain ⟨after, rfl, hu⟩ := h
  refine ⟨after ++ [x], by simp, ?_⟩
  intro y hy
  rcases List.mem_append.mp hy with hy | hy
  · exact hu y hy
  · exact List.mem_singleton.mp hy ▸ hx

theorem latest_or_absent (digest : String → δ) (compute : ι → String → α)
    (history : List (ι × Step)) (d : String) :
    (∃ before j kept, Latest history d before j kept) ∨
      (run digest compute history).find? d = none := by
  induction history using List.reverseRecOn with
  | nil => exact .inr rfl
  | append_singleton past x ih =>
    rw [run_snoc]
    by_cases hx : x.2.Touches d
    · obtain ⟨i, step⟩ := x
      cases step with
      | analyze e t =>
        obtain rfl : e = d := hx
        exact .inl ⟨past, i, t, [], rfl, by simp⟩
      | remove e => exact .inr (advance_dropped digest compute _ hx)
      | clear => exact .inr rfl
    · rw [advance_untouched digest compute _ hx]
      refine ih.imp ?_ id
      rintro ⟨before, j, kept, h⟩
      exact ⟨before, j, kept, latest_snoc h hx⟩

theorem kept_iff_latest : Kept history d ↔ ∃ before j kept, Latest history d before j kept := by
  constructor
  · rintro ⟨before, i, t, after, rfl, hu⟩
    -- the last call on the document in `after` takes the place of the given one
    induction after using List.reverseRecOn with
    | nil => exact ⟨before, i, t, [], rfl, by simp⟩
    | append_singleton past x ih =>
      by_cases hx : x.2.Touches d
      · obtain ⟨j, step⟩ := x
        have hn := hu (j, step) (by simp)
        cases step with
        | analyze e s =>
          obtain rfl : e = d := hx
          exact ⟨before ++ (i, .analyze e t) :: past, j, s, [], by simp, by simp⟩
        | remove e => exact absurd hx hn
        | clear => exact absurd trivial hn
      · obtain ⟨b, j, kept, h⟩ := ih fun y hy => hu y (List.mem_append_left _ hy)
        exact ⟨b, j, kept, by simpa using latest_snoc h hx⟩
  · rintro ⟨before, j, kept, after, e, hu⟩
    refine ⟨before, j, kept, after, e, fun x hx hd => hu x hx ?_⟩
    obtain ⟨i, step⟩ := x
    cases step with
    | analyze e t => exact hd.elim
    | remove e => exact hd
    | clear => trivial

theorem found_iff_kept (digest : String → δ) (compute : ι → String → α)
    (hd : Separates digest (texts history)) :
    ((run digest compute history).find? d).isSome = true ↔ Kept history d := by
  rw [kept_iff_latest]
  constructor
  · intro h
    rcases latest_or_absent digest compute history d with hl | hn
    · exact hl
    · rw [hn] at h
      cases h
  · rintro ⟨before, j, kept, hl⟩
    rw [find_latest digest compute hd hl]
    rfl

theorem call_latest (hd : Separates digest (t :: texts history))
    (h : Latest history d before j kept) :
    ((call digest compute history i d t).computed = true ↔ kept ≠ t) ∧
      (kept = t → (call digest compute history i d t).result =
        (call digest compute before j d t).result) := by
  have hf := find_latest digest compute (separates_history digest hd) h
  by_cases hk : kept = t
  · subst hk
    rw [call, getBy_hit digest _ _ hf rfl]
    simp
  · have hm : ∀ old r, (run digest compute history).find? d = some (old, r) →
        digest old ≠ digest t := by
      intro old r ho e
      rw [hf] at ho
      cases ho
      exact hk (hd kept (.tail t (latest_texts h).1) t (.head _) e)
    rw [call, getBy_miss digest _ _ hm]
    simp [hk]

theorem call_absent (h : ¬ ∃ before j kept, Latest history d before j kept) :
    (call digest compute history i d t).computed = true := by
  have hn := (latest_or_absent digest compute history d).resolve_left h
  rw [call, getBy_miss digest _ _ (by simp [hn])]

theorem call_computed_iff (hd : Separates digest (t :: texts history)) :
    (call digest compute history i d t).computed = true ↔
      (¬ ∃ before j kept, Latest history d before j kept) ∨
        ∃ before j kept, Latest history d before j kept ∧ kept ≠ t := by
  by_cases h : ∃ before j kept, Latest history d before j kept
  · obtain ⟨before, j, kept, hl⟩ := h
    constructor
    · intro hc
      exact .inr ⟨before, j, kept, hl, (call_latest digest compute i hd hl).1.mp hc⟩
    · rintro (hn | ⟨before', j', kept', hl', hne⟩)
      · exact absurd ⟨before, j, kept, hl⟩ hn
      · exact (call_latest digest compute i hd hl').1.mpr hne
  · exact iff_of_true (call_absent digest compute i h) (.inl h)

theorem call_fresh (h : (call digest compute history i d t).computed = true) :
    (call digest compute history i d t).result = compute i t := by
  unfold call at h ⊢
  obtain ⟨_, _, _, _, e⟩ | ⟨-, e⟩ :=
    getBy_cases digest (run digest compute history) d t (compute i)
  · rw [e] at h
    cases h
  · rw [e]

theorem call_result (hd : Separates digest (t :: texts history)) :
    ∃ k, (call digest compute history i d t).result = compute k t := by
  unfold call
  obtain ⟨kept, r, hf, hk, e⟩ | ⟨-, e⟩ :=
    getBy_cases digest (run digest compute history) d t (compute i)
  · obtain ⟨hm, k, rfl⟩ := run_computed history (fun a ha => ha) d kept r hf
    obtain rfl := hd kept (.tail t hm) t (.head _) hk
    exact ⟨k, by rw [e]⟩
  · exact ⟨i, by rw [e]⟩

theorem find_without (past rest : List (ι × Step)) {x : ι × Step} (hx : ¬ x.2.Touches d) :
    (run digest compute (past ++ x :: rest)).find? d =
      (run digest compute (past ++ rest)).find? d := by
  rw [run_append, run_append, List.foldl_cons]
  exact foldl_agree digest compute rest (advance_untouched digest compute _ hx)

end

def documents (c : Cache α) : List String := c.entries.map Prod.fst

theorem documents_remove (c : Cache α) (d : String) :
    documents (c.remove d) = (documents c).filter (· != d) := by
  simp only [documents, Cache.remove, List.filter_map]
  rfl

theorem mem_documents (c : Cache α) (d : String) : d ∈ documents c ↔ (c.find? d).isSome = true := by
  simp [documents, Cache.find?, List.lookup_isSome_iff]

theorem insert_nodup {c : Cache α} (h : (documents c).Nodup) (d t : String) (r : α) :
    (documents (c.insert d t r)).Nodup := by
  show (d :: documents (c.remove d)).Nodup
  rw [documents_remove, List.nodup_cons]
  exact ⟨by simp, h.filter _⟩

theorem advance_nodup (digest : String → δ) (compute : ι → String → α) {c : Cache α}
    (h : (documents c).Nodup) (x : ι × Step) :
    (documents (advance digest compute c x)).Nodup := by
  obtain ⟨i, step⟩ := x
  cases step with
  | analyze d t =>
    show (documents (c.getBy digest d t (compute i)).cache).Nodup
    obtain ⟨_, _, _, _, e⟩ | ⟨-, e⟩ := getBy_cases digest c d t (compute i)
    · rw [e]
      exact h
    · rw [e]
      exact insert_nodup h d t _
  | remove d =>
    show (documents (c.remove d)).Nodup
    rw [documents_remove]
    exact h.filter _
  | clear => exact List.nodup_nil

theorem run_nodup (digest : String → δ) (compute : ι → String → α) (history : List (ι × Step)) :
    (documents (run digest compute history)).Nodup := by
  induction history using List.reverseRecOn with
  | nil => exact List.nodup_nil
  | append_singleton past x ih =>
    rw [run_snoc]
    exact advance_nodup digest compute ih x

theorem session_cache (palette : Palette) (digest : String → δ) (checks : Checks)
    (history : List (ι × Step)) :
    session palette digest checks (history.map Prod.snd) =
      ⟨checks, run digest (fun _ : ι => analyze palette checks) history⟩ := by
  induction history using List.reverseRecOn with
  | nil => rfl
  | append_singleton past x ih =>
    rw [run_snoc, List.map_append, session, List.foldl_append, ← session, ih]
    obtain ⟨i, step⟩ := x
    cases step with
    | analyze d t => rfl
    | remove d => rfl
    | clear => rfl

section
variable (palette : Palette) (digest : String → δ) (checks : Checks) (history : List (ι × Step))
  (i : ι) (document text : String)

def served : Session := session palette digest checks (history.map Prod.snd)

/-- The answer of the session with the mark of the call that computed it. -/
def marked : Cache.Answer (ι × Parse) :=
  call digest (fun k t => (k, analyze palette checks t)) history i document text

/-- A call on a session, and what the session holds, in terms of the history alone. -/
structure Refined : Prop where
  analysis :
    ((served palette digest checks history).analyzeBy palette digest document text).result =
      analyze palette checks text
  computed :
    ((served palette digest checks history).analyzeBy palette digest document text).computed =
        true ↔
      (¬ ∃ before j kept, Latest history document before j kept) ∨
        ∃ before j kept, Latest history document before j kept ∧ kept ≠ text
  carried : (marked palette digest checks history i document text).result.2 =
      ((served palette digest checks history).analyzeBy palette digest document text).result ∧
    (marked palette digest checks history i document text).computed =
      ((served palette digest checks history).analyzeBy palette digest document text).computed
  fresh : (marked palette digest checks history i document text).computed = true →
    (marked palette digest checks history i document text).result.1 = i
  reused : ∀ before j, Latest history document before j text →
    (marked palette digest checks history i document text).result =
      (marked palette digest checks before j document text).result
  size : ∃ ds : List String, ds.Nodup ∧ (∀ d, d ∈ ds ↔ Kept history d) ∧
    (served palette digest checks history).cache.size = ds.length
  dropped :
    (served palette digest checks history).cache.contains document = true ↔ Kept history document
  apart : ∀ past x rest, history = past ++ x :: rest → ¬ x.2.Touches document →
    (marked palette digest checks history i document text).result =
        (marked palette digest checks (past ++ rest) i document text).result ∧
      ((served palette digest checks history).analyzeBy palette digest document text).computed =
        ((served palette digest checks (past ++ rest)).analyzeBy palette digest document
          text).computed ∧
      (served palette digest checks history).cache.contains document =
        (served palette digest checks (past ++ rest)).cache.contains document

theorem served_call :
    (served palette digest checks history).analyzeBy palette digest document text =
      call digest (fun _ => analyze palette checks) history i document text := by
  rw [served, session_cache]
  rfl

theorem served_contains :
    (served palette digest checks history).cache.contains document =
      ((run digest (fun _ : ι => analyze palette checks) history).find? document).isSome := by
  rw [served, session_cache]
  rfl

/-- After every history, a cached analysis is the plain analysis of the text. -/
theorem session_refines_analysis (hd : Separates digest (text :: texts history)) :
    Refined palette digest checks history i document text := by
  have hh := separates_history digest hd
  have hs := served_call palette digest checks history i document text
  have analysis :
      ((served palette digest checks history).analyzeBy palette digest document text).result =
      analyze palette checks text := by
    obtain ⟨k, hk⟩ := call_result digest (fun _ => analyze palette checks) i hd
    rw [hs, hk]
  constructor
  case analysis => exact analysis
  case computed =>
    rw [hs]
    exact call_computed_iff digest _ i hd
  case carried =>
    constructor
    · obtain ⟨k, hk⟩ := call_result digest (fun k t => (k, analyze palette checks t)) i hd
      rw [analysis, marked, hk]
    · rw [hs, Bool.eq_iff_iff, marked, call_computed_iff digest _ i hd,
        call_computed_iff digest _ i hd]
  case fresh =>
    intro h
    rw [marked, call_fresh digest _ i h]
  case reused =>
    intro before j hl
    exact (call_latest digest _ i hd hl).2 rfl
  case size =>
    refine ⟨documents (run digest (fun _ : ι => analyze palette checks) history),
      run_nodup digest _ history, ?_, ?_⟩
    · intro d
      rw [mem_documents, found_iff_kept digest _ hh]
    · rw [served, session_cache]
      exact (List.length_map _).symm
  case dropped =>
    rw [served_contains, found_iff_kept digest _ hh]
  case apart =>
    rintro past x rest rfl hx
    have hfind := find_without digest (fun _ => analyze palette checks) past rest hx
    have hmarked := find_without digest (fun k t => (k, analyze palette checks t)) past rest hx
    refine ⟨(getBy_agree digest text _ hmarked).1, ?_, ?_⟩
    · rw [hs, served_call palette digest checks (past ++ rest) i]
      exact (getBy_agree digest text _ hfind).2.1
    · rw [served_contains, served_contains, hfind]

end

def checksum (s : String) : Nat :=
  s.toList.foldl (fun h c => (257 * h + c.toNat) % 4294967296) 0

def revisited : List (Nat × Step) :=
  [(0, .analyze "main" "a -> b"), (1, .analyze "other" "a -> b"), (2, .clear),
    (3, .analyze "main" "a -> c"), (4, .analyze "other" "a -> c"), (5, .analyze "main" "a -> b"),
    (6, .remove "other")]

theorem session_refines_revisited :
    Separates checksum ("a -> b" :: texts revisited) ∧
      (marked Color.read checksum {} revisited 7 "main" "a -> b").result.1 = 5 ∧
      Refined Color.read checksum {} revisited 7 "main" "a -> b" := by
  have hd : Separates checksum ("a -> b" :: texts revisited) := by
    unfold Separates
    decide +kernel
  exact ⟨hd, by decide +kernel,
    session_refines_analysis Color.read checksum {} revisited 7 "main" "a -> b" hd⟩

end DiagramText.CacheHistory
