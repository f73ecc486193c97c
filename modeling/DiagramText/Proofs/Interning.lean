import DiagramText.Id.Interner
import DiagramText.Proofs.PathAlgebra
import Mathlib.Data.List.Forall2

/-!
# Symbols stand for texts

An interner hands out symbols, and an id is one of them. Whatever calls make
ids, each id stands for the text that the same calls make of texts, no text is
ever missing, and ids are equal exactly when their texts are. So what holds of
dotted texts holds of ids.
-/

set_option autoImplicit false

namespace DiagramText.Interning
open PathAlgebra

/-- An interner keeps what it has, looks up what it has interned, and hands out one symbol for each
text. -/
structure LawfulInterner (I : Interner) : Prop where
  interned : ∀ t s, I.resolve? (I.intern t s).2 (I.intern t s).1 = some s
  kept : ∀ t s x r, I.resolve? t x = some r → I.resolve? (I.intern t s).2 x = some r
  again : ∀ t s x, I.resolve? t x = some s → (I.intern t s).1 = x

def made? (row : List Id) : Id.Call → Option Id
  | .new name => some ⟨name⟩
  | .ofSegments segments => some (.ofSegments segments)
  | .nest parent child => do return (← row[parent]?).nest (← row[child]?)
  | .parent of => row[of]?.bind Id.parent?

def texts (row : List Id) : List Id.Call → List Id
  | [] => row
  | c :: cs => texts (row ++ (made? row c).toList) cs

def symbols (I : Interner) (row : List I.Symbol) : List Id.Call → I.Action (List I.Symbol)
  | [] => return row
  | c :: cs => do symbols I (row ++ (← I.call row c).toList) cs

/-- The symbols stand for the texts that the calls make, and are told apart as these are. -/
structure FaithfulSymbols (I : Interner) (calls : List Id.Call) (row : List I.Symbol)
    (t : I.Table) : Prop where
  texts : row.map (I.resolve? t) = (texts [] calls).map fun id => some id.text
  equal : ∀ x ∈ row, ∀ y ∈ row, x = y ↔ I.resolve? t x = I.resolve? t y

section
variable {I : Interner} {t : I.Table}

def StandsFor (t : I.Table) (x : I.Symbol) (id : Id) : Prop := I.resolve? t x = some id.text

def MakesSymbol (t : I.Table) (action : I.Action (Option I.Symbol)) (id? : Option Id) : Prop :=
  ∃ x? t', action t = some (x?, t') ∧ Option.Rel (StandsFor t') x? id? ∧
    ∀ x id, StandsFor t x id → StandsFor t' x id

theorem new_makes (hI : LawfulInterner I) (id : Id) :
    MakesSymbol t (do return some (← I.new id.text)) (some id) :=
  ⟨some (I.intern t id.text).1, (I.intern t id.text).2, rfl, .some (hI.interned t id.text),
    fun x _ hx => hI.kept t id.text x _ hx⟩

theorem nothing_makes : MakesSymbol t (pure none) none := ⟨none, t, rfl, .none, fun _ _ hx => hx⟩

theorem text_bind {α : Type} {x : I.Symbol} {id : Id} (h : StandsFor t x id)
    (f : String → I.Action α) : (I.text x >>= f) t = f id.text t := by
  have htext : I.text x t = some (id.text, t) := by
    change (I.resolve? t x).bind (fun s => some (s, t)) = _
    rw [h]
    rfl
  change (I.text x t).bind (fun p => f p.1 p.2) = _
  rw [htext]
  rfl

theorem nest_makes (hI : LawfulInterner I) {x y : I.Symbol} {a b : Id} (hx : StandsFor t x a)
    (hy : StandsFor t y b) : MakesSymbol t (do return some (← I.nest x y)) (some (a.nest b)) := by
  have haction : (do return some (← I.nest x y) : I.Action (Option I.Symbol)) t =
      (do return some (← I.new (a.nest b).text) : I.Action (Option I.Symbol)) t := by
    simp only [Interner.nest, bind_assoc]
    rw [text_bind hx, text_bind hy]
  rw [MakesSymbol, haction]
  exact new_makes hI (a.nest b)

theorem parent_makes (hI : LawfulInterner I) {x : I.Symbol} {a : Id} (hx : StandsFor t x a) :
    MakesSymbol t (I.parent? x) a.parent? := by
  rw [MakesSymbol, Interner.parent?, text_bind hx]
  cases a.parent? with
  | none => exact nothing_makes
  | some p => exact new_makes hI p

theorem stands_at {row : List I.Symbol} {ids : List Id} (h : List.Forall₂ (StandsFor t) row ids)
    (i : Nat) : Option.Rel (StandsFor t) row[i]? ids[i]? := by
  induction h generalizing i with
  | nil => exact .none
  | cons hx _ ih =>
    cases i with
    | zero => exact .some hx
    | succ i => exact ih i

theorem call_makes (hI : LawfulInterner I) {row : List I.Symbol} {ids : List Id}
    (h : List.Forall₂ (StandsFor t) row ids) (c : Id.Call) :
    MakesSymbol t (I.call row c) (made? ids c) := by
  cases c with
  | new name => exact new_makes hI ⟨name⟩
  | ofSegments segments => exact new_makes hI (.ofSegments segments)
  | nest i j =>
    have hi := stands_at h i
    have hj := stands_at h j
    rw [Interner.call, made?]
    generalize row[i]? = x, row[j]? = y, ids[i]? = a, ids[j]? = b at hi hj ⊢
    cases hi with
    | none => exact nothing_makes
    | some hx =>
      cases hj with
      | none => exact nothing_makes
      | some hy => exact nest_makes hI hx hy
  | parent i =>
    have hi := stands_at h i
    rw [Interner.call, made?]
    generalize row[i]? = x, ids[i]? = a at hi ⊢
    cases hi with
    | none => exact nothing_makes
    | some hx => exact parent_makes hI hx

theorem symbols_stand (hI : LawfulInterner I) {row : List I.Symbol} {ids : List Id}
    (h : List.Forall₂ (StandsFor t) row ids) (calls : List Id.Call) :
    ∃ row' t', symbols I row calls t = some (row', t') ∧
      List.Forall₂ (StandsFor t') row' (texts ids calls) := by
  induction calls generalizing row ids t with
  | nil => exact ⟨row, t, rfl, h⟩
  | cons c calls ih =>
    obtain ⟨x?, t', hcall, hmade, hkept⟩ := call_makes hI h c
    have hrow : List.Forall₂ (StandsFor t') (row ++ x?.toList) (ids ++ (made? ids c).toList) := by
      refine List.rel_append (h.imp hkept) ?_
      generalize made? ids c = id? at hmade ⊢
      cases hmade with
      | none => exact .nil
      | some hx => exact .cons hx .nil
    obtain ⟨row', t'', hrun, hstand⟩ := ih hrow
    refine ⟨row', t'', ?_, hstand⟩
    change (I.call row c t).bind (fun p => symbols I (row ++ p.1.toList) calls p.2) = _
    rw [hcall]
    exact hrun

theorem stands_texts {row : List I.Symbol} {ids : List Id}
    (h : List.Forall₂ (StandsFor t) row ids) :
    row.map (I.resolve? t) = ids.map fun id => some id.text := by
  induction h with
  | nil => rfl
  | cons hx _ ih => rw [List.map_cons, List.map_cons, hx, ih]

theorem stands_faithful (hI : LawfulInterner I) {calls : List Id.Call} {row : List I.Symbol}
    (h : List.Forall₂ (StandsFor t) row (texts [] calls)) : FaithfulSymbols I calls row t := by
  have htexts := stands_texts h
  refine ⟨htexts, fun x hx y _ => ⟨congrArg (I.resolve? t), fun hsame => ?_⟩⟩
  obtain ⟨id, -, htext⟩ := List.mem_map.mp (htexts ▸ List.mem_map_of_mem hx)
  calc x = (I.intern t id.text).1 := (hI.again t id.text x htext.symm).symm
    _ = y := hI.again t id.text y (hsame ▸ htext.symm)

end

section
variable {table : {texts : List String // texts.Nodup}} {s : String}

theorem listed_old (h : s ∈ table.val) :
    Interner.listed.intern table s = (table.val.idxOf s, table) := dif_pos h

theorem listed_new (h : s ∉ table.val) : Interner.listed.intern table s =
    (table.val.length, ⟨table.val ++ [s], Interner.nodup_snoc table.property h⟩) := dif_neg h

end

theorem listed_lawful : LawfulInterner .listed where
  interned table s := by
    by_cases h : s ∈ table.val
    · rw [listed_old h]
      exact List.getElem?_idxOf h
    · rw [listed_new h]
      exact List.getElem?_concat_length
  kept table s x r hx := by
    by_cases h : s ∈ table.val
    · rw [listed_old h]
      exact hx
    · obtain ⟨hlt, -⟩ := List.getElem?_eq_some_iff.mp hx
      rw [listed_new h]
      exact (List.getElem?_append_left hlt).trans hx
  again table s x hx := by
    obtain ⟨hlt, rfl⟩ := List.getElem?_eq_some_iff.mp hx
    rw [listed_old (List.getElem_mem hlt)]
    exact table.property.idxOf_getElem x hlt

/-- Dotted texts have their laws, and ids that any calls make stand for dotted texts one to one. -/
theorem ids_lawful {I : Interner} (hI : LawfulInterner I) : PathLaws ∧ ∀ calls,
    ∃ row t, symbols I [] calls I.empty = some (row, t) ∧ FaithfulSymbols I calls row t := by
  refine ⟨path_laws, fun calls => ?_⟩
  obtain ⟨row, t, hrun, hstand⟩ := symbols_stand hI .nil calls
  exact ⟨row, t, hrun, stands_faithful hI hstand⟩

theorem listed_back : LawfulInterner .listed ∧ ∃ row t,
    symbols .listed [] [.new "a", .new "", .nest 0 1, .parent 2, .ofSegments ["", "a"]]
      Interner.listed.empty = some (row, t) ∧
    row = ([0, 1, 2, 0, 0] : List Nat) ∧
    row.map (Interner.listed.resolve? t) = [some "a", some "", some "a.", some "a", some "a"] := by
  obtain ⟨row, t, hrun, hfaithful⟩ := (ids_lawful listed_lawful).2
    [.new "a", .new "", .nest 0 1, .parent 2, .ofSegments ["", "a"]]
  refine ⟨listed_lawful, row, t, hrun, ?_, ?_⟩
  · exact congrArg Prod.fst (Option.some.inj (hrun.symm.trans rfl))
  · rw [hfaithful.texts]
    rfl

end DiagramText.Interning
