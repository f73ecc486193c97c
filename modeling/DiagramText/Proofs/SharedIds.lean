import DiagramText.Proofs.Shapes

/-!
# Paths that share an id

An id is a dotted text, so it does not tell the dots between segments from
those inside a segment. Every mention of a shape is recorded under one id, and
two mentions share it exactly when their paths agree after each segment is
split at its own dots. Only a segment that holds a dot, as a quoted one can,
makes two different paths one shape.
-/

set_option autoImplicit false

namespace DiagramText.SharedIds
open Mention Mentions Reach WalkOrder Widths Shapes DiagramText.Tree

/-- A reached shape definition or end of a connection mentions a shape by its path; the segments
are those of the whole path. -/
inductive Mentioned (root : Tree) : List String → Tree → Prop where
  | definition {scope : List String} {l d p : Tree} (reached : Reached root scope l)
      (statement : .shape d ∈ l.statements) (path : d.shapePath? = some p) :
      Mentioned root (scope ++ p.segments) p
  | endpoint {scope : List String} {l c p : Tree} (reached : Reached root scope l)
      (statement : .connection c ∈ l.statements) (endpoint : .shape p ∈ c.endpoints) :
      Mentioned root (scope ++ p.segments) p

def Recorded (root p : Tree) (id : Id) : Prop :=
  ∃ scope segments, .path scope segments p.span ∈ root.mentions none ∧
    resolve scope segments = some id

def divided (segments : List String) : List (List Char) :=
  segments.flatMap fun s => s.toList.splitOn '.'

theorem split_intercalate {rows : List (List Char)} (h : rows ≠ []) :
    (['.'].intercalate rows).splitOn '.' = rows.flatMap (·.splitOn '.') := by
  induction rows with
  | nil => exact absurd rfl h
  | cons row rows ih =>
    cases rows with
    | nil => simp
    | cons next rows =>
      rw [List.flatMap_cons, List.intercalate_cons_cons, List.append_assoc, List.singleton_append,
        List.splitOn_append_cons_self, ih (List.cons_ne_nil _ _)]

theorem id_chars (segments : List String) :
    (idOf segments).text.toList = ['.'].intercalate (segments.map String.toList) :=
  String.toList_intercalate

theorem id_split {segments : List String} (h : segments ≠ []) :
    (idOf segments).text.toList.splitOn '.' = divided segments := by
  rw [id_chars, split_intercalate (by simpa using h), List.flatMap_map]
  rfl

theorem id_eq_iff {s t : List String} (hs : s ≠ []) (ht : t ≠ []) :
    idOf s = idOf t ↔ divided s = divided t := by
  constructor
  · intro h
    rw [← id_split hs, ← id_split ht, h]
  · intro h
    have hchars : (idOf s).text.toList = (idOf t).text.toList :=
      calc (idOf s).text.toList
        _ = ['.'].intercalate (divided s) := by rw [← id_split hs, List.intercalate_splitOn]
        _ = (idOf t).text.toList := by rw [h, ← id_split ht, List.intercalate_splitOn]
    exact congrArg Id.mk (String.toList_inj.mp hchars)

theorem divided_plain {segments : List String} (h : ∀ s ∈ segments, '.' ∉ s.toList) :
    divided segments = segments.map String.toList := by
  induction segments with
  | nil => rfl
  | cons s rest ih =>
    obtain ⟨hs, hrest⟩ := List.forall_mem_cons.mp h
    have hone : s.toList.splitOn '.' = [s.toList] := List.splitOn_eq_singleton hs
    rw [divided, List.flatMap_cons, hone, List.map_cons, ← ih hrest]
    rfl

theorem mentioned_names {root : Tree} {s : List String} {p : Tree} (h : Mentioned root s p) :
    ∃ scope l, Reached root scope l ∧ Names l p.segments p ∧ s = scope ++ p.segments := by
  cases h with
  | definition reached statement path => exact ⟨_, _, reached, .shape statement path, rfl⟩
  | endpoint reached statement endpoint => exact ⟨_, _, reached, .endpoint statement endpoint, rfl⟩

theorem path_sight {s : Sight} {scope : Option Id} {segments : List String} {span : Span}
    (h : .path scope segments span ∈ s.mentions) :
    ∃ scope' p, s = .path scope' segments p ∧ scope = scopeId scope' ∧ span = p.span := by
  cases s with
  | path scope' segments' p =>
    obtain ⟨rfl, rfl, rfl⟩ : scope = scopeId scope' ∧ segments = segments' ∧ span = p.span := by
      simpa [Sight.mentions] using h
    exact ⟨scope', p, rfl, rfl, rfl⟩
  | label shape text | form shape text =>
    cases hs : scopeId shape <;> simp [Sight.mentions, hs] at h
  | chain scope' c => simp [Sight.mentions] at h

theorem path_only {text : String} {scope scope' segments segments' : List String} {p q : Tree}
    (hp : .path scope segments p ∈ walk [] (parse text).tree)
    (hq : .path scope' segments' q ∈ walk [] (parse text).tree) (h : p.span = q.span) :
    Sight.path scope segments p = .path scope' segments' q := by
  have hwide {scope segments : List String} {p : Tree}
      (hp : .path scope segments p ∈ walk [] (parse text).tree) : p.start < p.stop := by
    obtain ⟨hmem, hk⟩ := parse_standing text _ hp p rfl
    exact parse_wide text hmem hk
  have hapart {scope scope' segments segments' : List String} {p q : Tree}
      (hp : .path scope segments p ∈ walk [] (parse text).tree) (h : p.span = q.span)
      (ha : Apart (.path scope segments p) (.path scope' segments' q)) : False := by
    have hstart : p.start = q.start := congrArg Span.start h
    have hp := hwide hp
    have hbefore : p.stop ≤ q.start := ha
    omega
  obtain ⟨before, after, hwalk⟩ := List.append_of_mem hp
  have hordered := parse_apart text
  rw [hwalk, List.pairwise_append, List.pairwise_cons] at hordered
  obtain ⟨-, ⟨hafter, -⟩, hbefore⟩ := hordered
  have hmem := hq
  rw [hwalk] at hmem
  rcases List.mem_append.mp hmem with hmem | hmem
  · exact (hapart hq h.symm (hbefore _ hmem _ List.mem_cons_self)).elim
  · rcases List.mem_cons.mp hmem with heq | hmem
    · exact heq.symm
    · exact (hapart hp h (hafter _ hmem)).elim

theorem recorded_iff {text : String} {s : List String} {p : Tree}
    (h : Mentioned (parse text).tree s p) (id : Id) :
    Recorded (parse text).tree p id ↔ id = idOf s := by
  obtain ⟨scope, l, hreach, hnames, rfl⟩ := mentioned_names h
  have hwalk := (parse_reached text _).mpr ⟨scope, l, hreach, .path hnames⟩
  have hresolve : resolve (scopeId scope) p.segments = some (idOf (scope ++ p.segments)) := by
    rw [resolve_scope, scopeId, if_neg]
    simp [names_segments hreach hnames]
  constructor
  · rintro ⟨outer, segments, hmem, hid⟩
    rw [tree_mentions] at hmem
    obtain ⟨sight, hsight, hmem⟩ := List.mem_flatMap.mp hmem
    obtain ⟨scope', q, rfl, rfl, hspan⟩ := path_sight hmem
    obtain ⟨rfl, rfl, rfl⟩ := Sight.path.inj (path_only hwalk hsight hspan)
    exact Option.some.inj (hid.symm.trans hresolve)
  · rintro rfl
    refine ⟨scopeId scope, p.segments, ?_, hresolve⟩
    rw [tree_mentions]
    exact List.mem_flatMap.mpr ⟨_, hwalk, List.mem_singleton.mpr rfl⟩

theorem mentioned_segments {text : String} {s : List String} {p : Tree}
    (h : Mentioned (parse text).tree s p) : s ≠ [] := by
  obtain ⟨scope, l, hreach, hnames, rfl⟩ := mentioned_names h
  simp [names_segments hreach hnames]

theorem mentioned_listed {text : String} {s : List String} {p : Tree}
    (h : Mentioned (parse text).tree s p) :
    ((Outline.ofTree (parse text).tree).shape? (idOf s)).isSome = true := by
  obtain ⟨scope, l, hreach, hnames, rfl⟩ := mentioned_names h
  exact named_listed hreach hnames

theorem definition_at {root : Tree} {n : Nat} {segments : List String}
    (h : (root.elements[n]?.any fun d => d.isKind .shapeDefinition &&
      d.shapePath?.any (·.segments = segments)) = true) : ∃ p, Mentioned root segments p := by
  obtain ⟨d, hd, h⟩ := (Option.any_eq_true _ _).mp h
  obtain ⟨hk, hpath⟩ := Bool.and_eq_true_iff.mp h
  obtain ⟨p, hp, hs⟩ := (Option.any_eq_true _ _).mp hpath
  obtain rfl : p.segments = segments := by simpa using hs
  have hkind : d.kind? = some .shapeDefinition := by simpa [isKind] using hk
  have hstatement : .shape d ∈ root.statements :=
    mem_statements.mpr ⟨List.mem_of_getElem? hd, hkind⟩
  exact ⟨p, @Mentioned.definition root [] root d p .refl hstatement hp⟩

structure Recordings (root : Tree) (o : Outline) (s t : List String) (p q : Tree) (i j : Id) :
    Prop where
  first : ∀ id, Recorded root p id ↔ id = i
  second : ∀ id, Recorded root q id ↔ id = j
  listed : (o.shape? i).isSome = true ∧ (o.shape? j).isSome = true
  shared : i = j ↔ divided s = divided t
  apart : (∀ segment ∈ s ++ t, '.' ∉ segment.toList) → s ≠ t → i ≠ j

/-- Two mentions of a text are recorded under the same id exactly when their paths agree as the
dots divide them. -/
theorem mentions_share_id (text : String) {s t : List String} {p q : Tree}
    (hp : Mentioned (parse text).tree s p) (hq : Mentioned (parse text).tree t q) :
    ∃ i j, Recordings (parse text).tree (Outline.ofTree (parse text).tree) s t p q i j := by
  have hshared := id_eq_iff (mentioned_segments hp) (mentioned_segments hq)
  refine ⟨idOf s, idOf t, recorded_iff hp, recorded_iff hq,
    ⟨mentioned_listed hp, mentioned_listed hq⟩, hshared, ?_⟩
  intro hplain hne hid
  obtain ⟨hs, ht⟩ := List.forall_mem_append.mp hplain
  have hrows : s.map String.toList = t.map String.toList := by
    rw [← divided_plain hs, ← divided_plain ht, hshared.mp hid]
  exact hne (List.map_injective_iff.mpr (fun _ _ => String.toList_inj.mp) hrows)

theorem divided_literals_recorded :
    ∃ p q, Mentioned (parse "a.\"b.c\"; \"a.b\".c").tree ["a", "b.c"] p ∧
      Mentioned (parse "a.\"b.c\"; \"a.b\".c").tree ["a.b", "c"] q ∧
      ∃ i j, Recordings (parse "a.\"b.c\"; \"a.b\".c").tree
        (Outline.ofTree (parse "a.\"b.c\"; \"a.b\".c").tree) ["a", "b.c"] ["a.b", "c"] p q i j := by
  obtain ⟨p, hp⟩ := @definition_at (parse "a.\"b.c\"; \"a.b\".c").tree 0 ["a", "b.c"]
    (by decide +kernel)
  obtain ⟨q, hq⟩ := @definition_at (parse "a.\"b.c\"; \"a.b\".c").tree 3 ["a.b", "c"]
    (by decide +kernel)
  exact ⟨p, q, hp, hq, mentions_share_id "a.\"b.c\"; \"a.b\".c" hp hq⟩

theorem quoted_dot_shared :
    ∃ p q id, Mentioned (parse "a.b: one; \"a.b\": two").tree ["a", "b"] p ∧
      Mentioned (parse "a.b: one; \"a.b\": two").tree ["a.b"] q ∧
      Recorded (parse "a.b: one; \"a.b\": two").tree p id ∧
      Recorded (parse "a.b: one; \"a.b\": two").tree q id := by
  obtain ⟨p, hp⟩ := @definition_at (parse "a.b: one; \"a.b\": two").tree 0 ["a", "b"]
    (by decide +kernel)
  obtain ⟨q, hq⟩ := @definition_at (parse "a.b: one; \"a.b\": two").tree 3 ["a.b"]
    (by decide +kernel)
  have hid : idOf ["a", "b"] = idOf ["a.b"] := by decide +kernel
  exact ⟨p, q, _, hp, hq, (recorded_iff hp _).mpr rfl, (recorded_iff hq _).mpr hid⟩

end DiagramText.SharedIds
