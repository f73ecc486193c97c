import DiagramText.Proofs.WalkOrder
import DiagramText.Proofs.Reach

/-!
# The shapes of an outline

The outline of a text lists the shapes along the paths that its reached
statements name, each once and in the order in which they are first named, at
the place of that path. A label or a form is only ever given to a shape that
is listed already.
-/

set_option autoImplicit false

namespace DiagramText.Shapes
open Entries Mentions Reach WalkOrder Widths DiagramText.Tree

/-- A reached statement names the shape, so many segments down a path. -/
def Marked (root : Tree) (m : Mark) : Prop :=
  ∃ scope l segments p, Reached root scope l ∧ Names l segments p ∧ 1 ≤ m.depth ∧
    m.depth ≤ segments.length ∧ m.id = idOf (scope ++ segments.take m.depth) ∧ m.span = p.span

def Before (a b : Mark) : Prop :=
  a.span.start < b.span.start ∨ a.span.start = b.span.start ∧ a.depth < b.depth

theorem shows_path {scope scope' segments : List String} {l p : Tree}
    (h : Shows scope l (.path scope' segments p)) : scope' = scope ∧ Names l segments p := by
  cases h with
  | path names => exact ⟨rfl, names⟩
  | assigned _ _ _ sight => simpa [place?] using assignments_nowhere _ sight

theorem tree_mentions (root : Tree) : root.mentions none = (walk [] root).flatMap Sight.mentions :=
  (walk_mentions [] root).symm

def sightMarks (s : Sight) : List Mark := allMarks s.mentions

theorem walk_marks (root : Tree) :
    allMarks (root.mentions none) = (walk [] root).flatMap sightMarks := by
  rw [tree_mentions, allMarks, List.flatMap_assoc]
  rfl

theorem path_marks (scope segments : List String) (p : Tree) :
    sightMarks (.path scope segments p) = marks (.path (scopeId scope) segments p.span) := by
  simp [sightMarks, Sight.mentions, allMarks]

theorem mem_sightMarks {s : Sight} {m : Mark} (h : m ∈ sightMarks s) :
    ∃ scope segments p, s = .path scope segments p := by
  cases s with
  | path scope segments p => exact ⟨scope, segments, p, rfl⟩
  | label shape text | form shape text =>
    cases hs : scopeId shape <;> simp [sightMarks, Sight.mentions, allMarks, marks, hs] at h
  | chain scope c =>
    obtain ⟨e, he, hm⟩ := List.mem_flatMap.mp h
    obtain ⟨e, -, rfl⟩ := List.mem_map.mp he
    simp [marks] at hm

theorem mem_marked (text : String) (m : Mark) :
    m ∈ allMarks ((parse text).tree.mentions none) ↔ Marked (parse text).tree m := by
  rw [walk_marks, List.mem_flatMap]
  constructor
  · rintro ⟨s, hs, hm⟩
    obtain ⟨scope, segments, p, rfl⟩ := mem_sightMarks hm
    obtain ⟨scope', l, hreach, hshow⟩ := (parse_reached text _).mp hs
    obtain ⟨rfl, hnames⟩ := shows_path hshow
    rw [path_marks] at hm
    exact ⟨scope, l, segments, p, hreach, hnames, mem_marks.mp hm⟩
  · rintro ⟨scope, l, segments, p, hreach, hnames, hm⟩
    refine ⟨_, (parse_reached text _).mpr ⟨scope, l, hreach, .path hnames⟩, ?_⟩
    rw [path_marks]
    exact mem_marks.mpr hm

theorem depths_ascend (ids : List Id) (span : Span) (n : Nat) :
    ((ids.zipIdx n).map fun shape => (⟨shape.1, shape.2, span⟩ : Mark)).Pairwise Before := by
  induction ids generalizing n with
  | nil => exact List.Pairwise.nil
  | cons id ids ih =>
    rw [List.zipIdx_cons, List.map_cons, List.pairwise_cons]
    refine ⟨?_, ih (n + 1)⟩
    intro m hm
    obtain ⟨shape, hshape, rfl⟩ := List.mem_map.mp hm
    exact .inr ⟨rfl, List.le_snd_of_mem_zipIdx hshape⟩

theorem sight_ordered (s : Sight) : (sightMarks s).Pairwise Before := by
  cases s with
  | path scope segments p =>
    rw [path_marks]
    exact depths_ascend _ _ 1
  | _ =>
    refine List.pairwise_of_forall_mem_list fun a ha b _ => ?_
    obtain ⟨_, _, _, hs⟩ := mem_sightMarks ha
    simp at hs

theorem marks_ordered (text : String) :
    (allMarks ((parse text).tree.mentions none)).Pairwise Before := by
  rw [walk_marks, List.pairwise_flatMap]
  refine ⟨fun s _ => sight_ordered s, ?_⟩
  refine (parse_apart text).imp_of_mem ?_
  intro a b ha _ hab m hm n hn
  obtain ⟨scope, segments, p, rfl⟩ := mem_sightMarks hm
  obtain ⟨scope', segments', q, rfl⟩ := mem_sightMarks hn
  obtain ⟨hp, hk⟩ := parse_standing text _ ha p rfl
  have hwide := parse_wide text hp hk
  have hapart : p.stop ≤ q.start := hab
  rw [path_marks] at hm hn
  have hms : m.span = p.span := (mem_marks.mp hm).2.2.2
  have hns : n.span = q.span := (mem_marks.mp hn).2.2.2
  left
  rw [hms, hns]
  exact hwide.trans_le hapart

theorem outline_entries (text : String) :
    (Outline.ofTree (parse text).tree).shapes =
      (firsts (allMarks ((parse text).tree.mentions none))).map
        (entry ((parse text).tree.mentions none)) :=
  shapes_firsts (mentions_grounded _)

theorem outline_marked (text : String) (id : Id) :
    (∃ e ∈ (Outline.ofTree (parse text).tree).shapes, e.id = id) ↔
      ∃ m, Marked (parse text).tree m ∧ m.id = id := by
  rw [outline_entries]
  constructor
  · rintro ⟨e, he, rfl⟩
    obtain ⟨m, hm, rfl⟩ := List.mem_map.mp he
    exact ⟨m, (mem_marked text m).mp (firsts_mem hm), rfl⟩
  · rintro ⟨m, hm, rfl⟩
    obtain ⟨k, hk, hid⟩ := firsts_marked ((mem_marked text m).mpr hm)
    exact ⟨_, List.mem_map.mpr ⟨k, hk, rfl⟩, hid⟩

theorem names_segments {text : String} {scope segments : List String} {l p : Tree}
    (hreach : Reached (parse text).tree scope l) (h : Names l segments p) : segments ≠ [] := by
  have hwalk := (parse_reached text _).mpr ⟨scope, l, hreach, .path h⟩
  obtain ⟨hp, -⟩ := parse_standing text _ hwalk p rfl
  have hnamed := (parse_solid text p hp).named
  cases h with
  | shape statement path => exact hnamed (by simp [(child_iff path).2, isPath])
  | endpoint statement endpoint =>
    have hk : p.kind? = some .shapeId := (mem_endpoints.mp endpoint).2
    exact hnamed (by simp [hk, isPath])
  | property statement path target => exact target

theorem marked_named (text : String) (id : Id) :
    (∃ m, Marked (parse text).tree m ∧ m.id = id) ↔
      ∃ scope l segments p k, Reached (parse text).tree scope l ∧ Names l segments p ∧ 1 ≤ k ∧
        id = idOf (scope ++ segments.take k) := by
  constructor
  · rintro ⟨m, ⟨scope, l, segments, p, hreach, hnames, hk, -, hid, -⟩, rfl⟩
    exact ⟨scope, l, segments, p, m.depth, hreach, hnames, hk, hid⟩
  · rintro ⟨scope, l, segments, p, k, hreach, hnames, hk, rfl⟩
    have hlen := List.length_pos_iff.mpr (names_segments hreach hnames)
    have htake : segments.take k = segments.take (min k segments.length) := List.take_eq_take_min
    refine ⟨⟨idOf (scope ++ segments.take k), min k segments.length, p.span⟩,
      ⟨scope, l, segments, p, hreach, hnames, ?_, Nat.min_le_right _ _, ?_, rfl⟩, rfl⟩
    · exact Nat.le_min.mpr ⟨hk, hlen⟩
    · rw [htake]

theorem named_listed {text : String} {scope segments : List String} {l p : Tree}
    (hreach : Reached (parse text).tree scope l) (h : Names l segments p) :
    ((Outline.ofTree (parse text).tree).shape? (idOf (scope ++ segments))).isSome = true := by
  have hlen := List.length_pos_iff.mpr (names_segments hreach h)
  have hmarked := (marked_named text _).mpr
    ⟨scope, l, segments, p, segments.length, hreach, h, hlen, rfl⟩
  rw [List.take_length] at hmarked
  obtain ⟨e, he, hid⟩ := (outline_marked text _).mpr hmarked
  rw [Outline.shape?, List.find?_isSome]
  exact ⟨e, he, by simpa using hid⟩

/-- How an outline lists the shapes of a tree. -/
structure Lists (root : Tree) (o : Outline) : Prop where
  ids : ∀ id, (∃ e ∈ o.shapes, e.id = id) ↔
    ∃ scope l segments p k, Reached root scope l ∧ Names l segments p ∧ 1 ≤ k ∧
      id = idOf (scope ++ segments.take k)
  once : (o.shapes.map (·.id)).Nodup
  keyed : ∀ e ∈ o.shapes, o.shape? e.id = some e
  order : ∃ ms : List Mark, (∀ m, m ∈ ms ↔ Marked root m) ∧ ms.Pairwise Before ∧
    o.shapes.map (fun e => (e.id, e.span)) = (firsts ms).map (fun m => (m.id, m.span))
  starts : o.shapes.Pairwise fun a b => a.span.start ≤ b.span.start
  given : ∀ before m after, root.mentions none = before ++ m :: after →
    ∀ id, owner? m = some id → ((Outline.ofMentions before).shape? id).isSome = true

theorem firsts_sublist (ms : List Mark) : (firsts ms).Sublist ms := by
  induction ms with
  | nil => exact .slnil
  | cons m ms ih => exact (List.filter_sublist.trans ih).cons_cons m

theorem entry_found {es : List OutlineShape} (h : (es.map (·.id)).Nodup) :
    ∀ e ∈ es, es.find? (·.id == e.id) = some e := by
  induction es with
  | nil => simp
  | cons d es ih =>
    rw [List.map_cons, List.nodup_cons] at h
    intro e he
    rcases List.mem_cons.mp he with rfl | he
    · simp
    · have hne : d.id ≠ e.id := fun heq => h.1 (heq ▸ List.mem_map.mpr ⟨e, he, rfl⟩)
      rw [List.find?_cons_of_neg (by simpa using hne)]
      exact ih h.2 e he

/-- The outline of every text lists exactly the shapes along the paths of its reached
statements, each at its first mention. -/
theorem outline_lists (text : String) :
    Lists (parse text).tree (Outline.ofTree (parse text).tree) := by
  have hentries := outline_entries text
  have hordered := marks_ordered text
  have honce : ((Outline.ofTree (parse text).tree).shapes.map (·.id)).Nodup := by
    rw [hentries, List.map_map]
    exact firsts_nodup _
  constructor
  · intro id
    exact (outline_marked text id).trans (marked_named text id)
  · exact honce
  · exact entry_found honce
  · refine ⟨_, mem_marked text, hordered, ?_⟩
    rw [hentries, List.map_map]
    rfl
  · rw [hentries, List.pairwise_map]
    refine (hordered.sublist (firsts_sublist _)).imp ?_
    rintro a b (hlt | ⟨heq, -⟩)
    · exact hlt.le
    · exact heq.le
  · intro before m after heq id ho
    exact grounded_declared (mentions_grounded _) heq ho

end DiagramText.Shapes
