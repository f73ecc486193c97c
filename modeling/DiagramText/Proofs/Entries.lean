import DiagramText.Outline
import Mathlib.Data.List.Induction

/-!
# Entries of an outline

An outline is built from mentions one by one. Its entries are the shapes that
the paths mark, each where it is marked first, with the last label and the
last form that it was given. This takes mentions that are grounded: a label
or a form is given only to a shape that a path before it has marked, so no
entry is made for want of one.
-/

set_option autoImplicit false

namespace DiagramText.Entries
open Mention Outline

/-- A shape on a path, and the number of segments that lead to it. -/
structure Mark where
  id : Id
  depth : Nat
  span : Span
  deriving DecidableEq

def marks : Mention → List Mark
  | .path scope segments span =>
    ((along scope segments).zipIdx 1).map fun shape => ⟨shape.1, shape.2, span⟩
  | _ => []

def allMarks (ms : List Mention) : List Mark := ms.flatMap marks

def firsts : List Mark → List Mark
  | [] => []
  | m :: ms => m :: (firsts ms).filter (·.id ≠ m.id)

def label? (id : Id) : Mention → Option String
  | .label shape text => if shape = id then some text else none
  | _ => none

def form? (id : Id) : Mention → Option String
  | .form shape name => if shape = id then some name else none
  | _ => none

def edge? : Mention → Option OutlineEdge
  | .edge e => some e
  | _ => none

/-- What a mention says, wherever it stands. -/
def unplaced : Mention → Mention
  | .path scope segments _ => .path scope segments {}
  | .edge e => .edge { e with span := {} }
  | m => m

def lastLabel? (ms : List Mention) (id : Id) : Option String := (ms.filterMap (label? id)).getLast?

def lastForm? (ms : List Mention) (id : Id) : Option String := (ms.filterMap (form? id)).getLast?

def entry (ms : List Mention) (m : Mark) : OutlineShape :=
  ⟨m.id, lastLabel? ms m.id, lastForm? ms m.id, m.span⟩

def owner? : Mention → Option Id
  | .label shape _ | .form shape _ => some shape
  | _ => none

/-- Every shape that is given something has been marked before. -/
def Grounded (ms : List Mention) : Prop :=
  ∀ before m after, ms = before ++ m :: after →
    ∀ id, owner? m = some id → ∃ k ∈ allMarks before, k.id = id

theorem firsts_mem {m : Mark} {ms : List Mark} (h : m ∈ firsts ms) : m ∈ ms := by
  induction ms with
  | nil => simp [firsts] at h
  | cons k ms ih =>
    rcases List.mem_cons.mp h with rfl | h
    · exact List.mem_cons_self
    · exact List.mem_cons_of_mem k (ih (List.mem_filter.mp h).1)

theorem firsts_marked {m : Mark} {ms : List Mark} (h : m ∈ ms) :
    ∃ k ∈ firsts ms, k.id = m.id := by
  induction ms with
  | nil => simp at h
  | cons n ms ih =>
    by_cases hid : n.id = m.id
    · exact ⟨n, List.mem_cons_self, hid⟩
    · have hm : m ∈ ms := by
        rcases List.mem_cons.mp h with rfl | h
        · exact absurd rfl hid
        · exact h
      obtain ⟨k, hk, hkm⟩ := ih hm
      have hne : k.id ≠ n.id := fun heq => hid (heq.symm.trans hkm)
      exact ⟨k, List.mem_cons_of_mem n (List.mem_filter.mpr ⟨hk, by simpa using hne⟩), hkm⟩

theorem firsts_nodup (ms : List Mark) : ((firsts ms).map (·.id)).Nodup := by
  induction ms with
  | nil => simp [firsts]
  | cons m ms ih =>
    rw [firsts, List.map_cons, List.nodup_cons]
    refine ⟨?_, ih.sublist (List.filter_sublist.map _)⟩
    intro hmem
    obtain ⟨k, hk, hid⟩ := List.mem_map.mp hmem
    simpa [hid] using (List.mem_filter.mp hk).2

theorem firsts_snoc (ms : List Mark) (m : Mark) :
    firsts (ms ++ [m]) = if (∃ k ∈ ms, k.id = m.id) then firsts ms else firsts ms ++ [m] := by
  induction ms with
  | nil => simp [firsts]
  | cons n ms ih =>
    rw [List.cons_append, firsts, ih]
    by_cases hn : n.id = m.id
    · have hthere : ∃ k ∈ n :: ms, k.id = m.id := ⟨n, List.mem_cons_self, hn⟩
      rw [if_pos hthere, firsts]
      split
      · rfl
      · simp [List.filter_append, hn]
    · by_cases hm : ∃ k ∈ ms, k.id = m.id
      · obtain ⟨k, hk, hid⟩ := hm
        rw [if_pos ⟨k, hk, hid⟩, if_pos ⟨k, List.mem_cons_of_mem n hk, hid⟩, firsts]
      · have hnone : ¬∃ k ∈ n :: ms, k.id = m.id := by
          rintro ⟨k, hk, hid⟩
          rcases List.mem_cons.mp hk with rfl | hk
          · exact hn hid
          · exact hm ⟨k, hk, hid⟩
        rw [if_neg hm, if_neg hnone, firsts, List.filter_append, List.cons_append]
        simp [Ne.symm hn]

/-- The entries are those of the marks, with the assignments of the mentions. -/
def Reflects (ms : List Mention) (ks : List Mark) (o : Outline) : Prop :=
  o.shapes = (firsts ks).map (entry ms)

theorem shape_found {ms : List Mention} {ks : List Mark} {o : Outline} (h : Reflects ms ks o)
    (id : Id) : (o.shape? id).isSome = true ↔ ∃ k ∈ ks, k.id = id := by
  rw [shape?, h, List.find?_isSome]
  constructor
  · rintro ⟨e, he, hid⟩
    obtain ⟨k, hk, rfl⟩ := List.mem_map.mp he
    exact ⟨k, firsts_mem hk, by simpa [entry] using hid⟩
  · rintro ⟨k, hk, rfl⟩
    obtain ⟨n, hn, hid⟩ := firsts_marked hk
    exact ⟨entry ms n, List.mem_map.mpr ⟨n, hn, rfl⟩, by simpa [entry] using hid⟩

/-- Nothing is given to the shape. -/
def Untouched (ms : List Mention) (id : Id) : Prop := ∀ m ∈ ms, owner? m ≠ some id

theorem grounded_untouched {ms : List Mention} (h : Grounded ms) {id : Id}
    (hid : ¬∃ k ∈ allMarks ms, k.id = id) : Untouched ms id := by
  intro m hm ho
  obtain ⟨before, after, rfl⟩ := List.append_of_mem hm
  obtain ⟨k, hk, hkid⟩ := h before m after rfl id ho
  refine hid ⟨k, ?_, hkid⟩
  rw [allMarks, List.flatMap_append]
  exact List.mem_append_left _ hk

theorem untouched_label {ms : List Mention} {id : Id} (h : Untouched ms id) :
    lastLabel? ms id = none := by
  rw [lastLabel?, List.getLast?_eq_none_iff, List.filterMap_eq_nil_iff]
  intro m hm
  cases m with
  | label shape text =>
    have hne : shape ≠ id := by simpa [owner?] using h _ hm
    simp [label?, hne]
  | _ => rfl

theorem untouched_form {ms : List Mention} {id : Id} (h : Untouched ms id) :
    lastForm? ms id = none := by
  rw [lastForm?, List.getLast?_eq_none_iff, List.filterMap_eq_nil_iff]
  intro m hm
  cases m with
  | form shape name =>
    have hne : shape ≠ id := by simpa [owner?] using h _ hm
    simp [form?, hne]
  | _ => rfl

theorem declare_reflects {ms : List Mention} {ks : List Mark} {o : Outline} {m : Mark}
    (h : Reflects ms ks o) (hm : (¬∃ k ∈ ks, k.id = m.id) → Untouched ms m.id) :
    Reflects ms (ks ++ [m]) (o.declare m.span m.id) := by
  have hfound := shape_found h m.id
  unfold declare
  rw [Reflects, firsts_snoc]
  by_cases hk : ∃ k ∈ ks, k.id = m.id
  · rw [if_pos (hfound.mpr hk), if_pos hk]
    exact h
  · rw [if_neg fun hs => hk (hfound.mp hs), if_neg hk, List.map_append, ← h]
    simp [entry, untouched_label (hm hk), untouched_form (hm hk)]

theorem declares_reflects {ms : List Mention} {ks ns : List Mark} {o : Outline}
    (h : Reflects ms ks o) (hn : ∀ n ∈ ns, (¬∃ k ∈ ks, k.id = n.id) → Untouched ms n.id) :
    Reflects ms (ks ++ ns) (ns.foldl (fun o n => o.declare n.span n.id) o) := by
  induction ns generalizing ks o with
  | nil => simpa using h
  | cons n ns ih =>
    have hd := declare_reflects h (hn n List.mem_cons_self)
    have hrest := ih hd fun k hk hnone => hn k (List.mem_cons_of_mem n hk) fun ⟨l, hl, hid⟩ =>
      hnone ⟨l, List.mem_append_left _ hl, hid⟩
    simpa using hrest

theorem along_declares (scope : Option Id) (segments : List String) (span : Span) (o : Outline) :
    (along scope segments).foldl (declare span) o =
      (marks (.path scope segments span)).foldl (fun o n => o.declare n.span n.id) o := by
  rw [marks, List.foldl_map]
  conv_lhs => rw [← List.zipIdx_map_fst 1 (along scope segments), List.foldl_map]

theorem grounded_init {ms : List Mention} {m : Mention} (h : Grounded (ms ++ [m])) :
    Grounded ms := by
  intro before n after heq
  exact h before n (after ++ [m]) (by rw [heq, List.append_assoc, List.cons_append])

theorem grounded_last {ms : List Mention} {m : Mention} (h : Grounded (ms ++ [m])) {id : Id}
    (ho : owner? m = some id) : ∃ k ∈ allMarks ms, k.id = id :=
  h ms m [] rfl id ho

theorem allMarks_snoc (ms : List Mention) (m : Mention) :
    allMarks (ms ++ [m]) = allMarks ms ++ marks m := by
  simp [allMarks]

theorem lastLabel_snoc (ms : List Mention) (m : Mention) (id : Id) :
    lastLabel? (ms ++ [m]) id = (label? id m).or (lastLabel? ms id) := by
  rw [lastLabel?, lastLabel?, List.filterMap_append]
  cases h : label? id m <;> simp [h]

theorem lastForm_snoc (ms : List Mention) (m : Mention) (id : Id) :
    lastForm? (ms ++ [m]) id = (form? id m).or (lastForm? ms id) := by
  rw [lastForm?, lastForm?, List.filterMap_append]
  cases h : form? id m <;> simp [h]

theorem update_reflects {ms : List Mention} {m : Mention} {ks : List Mark} {o : Outline} {id : Id}
    {f : OutlineShape → OutlineShape} (h : Reflects ms ks o) (hid : ∃ k ∈ ks, k.id = id)
    (hf : ∀ k : Mark, entry (ms ++ [m]) k = if k.id = id then f (entry ms k) else entry ms k) :
    Reflects (ms ++ [m]) ks (o.update id f) := by
  have hthere : (o.shape? id).isSome = true := (shape_found h id).mpr hid
  rw [Reflects, update, declare, if_pos hthere]
  simp only
  rw [h, List.map_map]
  refine List.map_congr_left fun k _ => ?_
  rw [hf k]
  rfl

theorem add_reflects {ms : List Mention} {m : Mention} {o : Outline} (hg : Grounded (ms ++ [m]))
    (h : Reflects ms (allMarks ms) o) :
    Reflects (ms ++ [m]) (allMarks (ms ++ [m])) (o.add m) := by
  rw [allMarks_snoc]
  cases m with
  | path scope segments span =>
    have hd := @declares_reflects _ _ (marks (.path scope segments span)) _ h fun n _ hn =>
      grounded_untouched (grounded_init hg) hn
    rw [add, along_declares, Reflects, hd]
    refine List.map_congr_left fun k _ => ?_
    rw [entry, entry, lastLabel_snoc, lastForm_snoc]
    rfl
  | label shape text | form shape text =>
    show Reflects _ (allMarks ms ++ []) _
    rw [List.append_nil]
    refine update_reflects h (grounded_last hg rfl) fun k => ?_
    rw [entry, entry, lastLabel_snoc, lastForm_snoc]
    by_cases hk : k.id = shape
    · simp [label?, form?, hk]
    · simp [label?, form?, hk, Ne.symm hk]
  | edge e =>
    show Reflects _ (allMarks ms ++ []) _
    rw [List.append_nil, Reflects, add, h]
    refine List.map_congr_left fun k _ => ?_
    rw [entry, entry, lastLabel_snoc, lastForm_snoc]
    rfl

theorem ofMentions_snoc (ms : List Mention) (m : Mention) :
    ofMentions (ms ++ [m]) = (ofMentions ms).add m := by
  simp [ofMentions]

theorem shapes_firsts {ms : List Mention} (h : Grounded ms) :
    (ofMentions ms).shapes = (firsts (allMarks ms)).map (entry ms) := by
  induction ms using List.reverseRecOn with
  | nil => rfl
  | append_singleton ms m ih =>
    rw [ofMentions_snoc]
    exact add_reflects h (ih (grounded_init h))

theorem edges_mentioned (ms : List Mention) : (ofMentions ms).edges = ms.filterMap edge? := by
  induction ms using List.reverseRecOn with
  | nil => rfl
  | append_singleton ms m ih =>
    rw [ofMentions_snoc, List.filterMap_append, ← ih]
    cases m with
    | path scope segments span =>
      have hd (ids : List Id) (o : Outline) : (ids.foldl (declare span) o).edges = o.edges := by
        induction ids generalizing o with
        | nil => rfl
        | cons id ids ihd =>
          rw [List.foldl_cons, ihd]
          unfold declare
          split <;> rfl
      simp [add, hd, edge?]
    | label shape text | form shape text =>
      simp only [add, update, declare, edge?, List.filterMap_cons, List.filterMap_nil,
        List.append_nil]
      split <;> rfl
    | edge e => simp [add, edge?]

theorem grounded_declared {ms before after : List Mention} {m : Mention} {id : Id}
    (h : Grounded ms) (heq : ms = before ++ m :: after) (ho : owner? m = some id) :
    ((ofMentions before).shape? id).isSome = true := by
  have hb : Grounded before := by
    intro b n a hb
    exact h b n (a ++ m :: after) (by rw [heq, hb, List.append_assoc, List.cons_append])
  exact (shape_found (shapes_firsts hb) id).mpr (h before m after heq id ho)

end DiagramText.Entries
