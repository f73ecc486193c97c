import DiagramText.Proofs.Ascent
import DiagramText.Proofs.WalkOrder
import DiagramText.Session

/-!
# The order of diagnostics

An analysis reports in three groups: the scanner, the grammar, the checks.
Within each group the reports follow the text. For the checks this rests on
the production of a property: its key comes first, then its value, and only
then the block in which other properties stand, and neither keys nor values
hold properties. Every report has a primary label, and every label lies in the
text between two of its characters.
-/

set_option autoImplicit false

namespace DiagramText.DiagnosticOrder
open Text Scanning Production Layout Schema WalkOrder Validation Ascent DiagramText.Tree

@[elab_as_elim]
theorem suffix_induction {motive : List Tree → Prop} (nil : motive [])
    (token : ∀ t xs, motive xs → motive (.token t :: xs))
    (node : ∀ k s cs xs, (∀ ys, ys <:+ cs → motive ys) → motive xs → motive (.node k s cs :: xs))
    (xs : List Tree) : motive xs := by
  have h : ∀ ys, ys <:+ xs → motive ys := by
    induction xs using forest_induction with
    | nil =>
      intro ys hys
      rw [List.suffix_nil.mp hys]
      exact nil
    | token t xs ih =>
      intro ys hys
      rcases List.suffix_cons_iff.mp hys with rfl | hys
      · exact token t xs (ih xs List.suffix_rfl)
      · exact ih ys hys
    | node k s cs xs ihc ih =>
      intro ys hys
      rcases List.suffix_cons_iff.mp hys with rfl | hys
      · exact node k s cs xs ihc (ih xs List.suffix_rfl)
      · exact ih ys hys
  exact h xs List.suffix_rfl

theorem forall_nodes_cons {P : Tree → Prop} {k : NodeKind} {s : Nat} {cs xs : List Tree} :
    (∀ n ∈ nodesAll (.node k s cs :: xs), P n) ↔
      P (.node k s cs) ∧ (∀ n ∈ nodesAll cs, P n) ∧ ∀ n ∈ nodesAll xs, P n := by
  have h := @forall_nodes_append P [.node k s cs] xs
  rw [forall_nodes_node, and_assoc] at h
  exact h

theorem reports_append (palette : Palette) (checks : Checks) (owner : Owner) (xs ys : List Tree) :
    diagnosticsAll palette checks owner (xs ++ ys) =
      diagnosticsAll palette checks owner xs ++ diagnosticsAll palette checks owner ys := by
  induction xs with
  | nil => rfl
  | cons x xs ih => rw [List.cons_append, diagnosticsAll, ih, diagnosticsAll, List.append_assoc]

/-- Kinds of nodes below which no property stands. -/
def isQuiet : NodeKind → Bool
  | .propertyKey | .attributeValue | .array | .error => true
  | _ => false

def Quiet (xs : List Tree) : Prop := ∀ x ∈ xs, ∀ k, x.kind? = some k → isQuiet k = true

theorem nodeless_quiet {xs : List Tree} (h : Nodeless xs) : Quiet xs := by
  intro x hx k hk
  have hn := h x hx
  simp [isNode, hk] at hn

theorem signature_quiet {xs : List Tree}
    (h : ∀ k, Symbol.node k ∈ signature xs → isQuiet k = true) : Quiet xs := by
  intro x hx k hk
  exact h k (mem_signature_node k x xs hx hk)

theorem enclosed_element {opening closing : TokenKind} {xs : List Tree} {x : Tree} {k : NodeKind}
    (h : Enclosed opening closing Elements xs) (hx : x ∈ xs) (hk : x.kind? = some k) :
    k = .attributeValue := by
  obtain ⟨t, body, close, rfl, -, hbody, hclose⟩ := h
  have hx : x ∈ body := by
    rcases List.mem_cons.mp hx with rfl | hx
    · simp [kind?] at hk
    · rcases List.mem_append.mp hx with hx | hx
      · exact hx
      · rcases hclose with rfl | ⟨u, rfl, -⟩
        · simp at hx
        · obtain rfl : x = .token u := List.mem_singleton.mp hx
          simp [kind?] at hk
  have he := hbody _ (mem_signature_node k x body hx hk)
  simpa [isElement] using he

theorem quiet_below {k : NodeKind} {s : Nat} {cs : List Tree} (h : Lawful (.node k s cs))
    (hk : isQuiet k = true) : Quiet cs := by
  have hc : Conforms k cs := h.conforms rfl
  cases k with
  | propertyKey => exact nodeless_quiet hc
  | error => exact nodeless_quiet hc
  | attributeValue =>
    rcases hc with hc | ⟨x, hx, hkind⟩
    · exact nodeless_quiet hc
    · obtain rfl : cs = [x] := hx
      intro y hy k hk
      obtain rfl : y = x := List.mem_singleton.mp hy
      rcases hkind with hkind | hkind
      · obtain rfl : k = .array := by simpa [isKind, hk] using hkind
        rfl
      · obtain rfl : k = .error := by simpa [isKind, hk] using hkind
        rfl
  | array =>
    intro x hx k hk
    rw [enclosed_element hc hx hk]
    rfl
  | _ => simp [isQuiet] at hk

theorem quiet_silent (palette : Palette) (checks : Checks) (xs : List Tree) : ∀ owner,
    (∀ n ∈ nodesAll xs, Lawful n) → Quiet xs →
      diagnosticsAll palette checks owner xs = [] := by
  induction xs using forest_induction with
  | nil => exact fun _ _ _ => rfl
  | token t xs ih =>
    intro owner hl hq
    exact ih owner hl fun x hx => hq x (List.mem_cons_of_mem _ hx)
  | node k s cs xs ihc ih =>
    intro owner hl hq
    obtain ⟨hself, hlc, hlx⟩ := forall_nodes_cons.mp hl
    have hk : isQuiet k = true := hq (.node k s cs) List.mem_cons_self k rfl
    have hne : k ≠ .property := by
      rintro rfl
      simp [isQuiet] at hk
    have hcs := ihc (ownerBelow owner (.node k s cs)) hlc (quiet_below hself hk)
    have hxs := ih owner hlx fun x hx => hq x (List.mem_cons_of_mem _ hx)
    rw [diagnosticsAll, diagnosticsUnder, if_neg hne, hcs, hxs]
    rfl

theorem coded_ascends {cs : List Char} {severity : Severity} {k : Code} {message : String}
    {x : Tree} {hi : Nat} (hk : k.phase = .validate) (hx : Bounded cs x.span) {lo : Nat}
    (hlo : lo ≤ x.start) (hhi : x.start ≤ hi) :
    Ascends cs .validate lo hi [.coded severity k message x.span] := by
  have hd : Located cs k.phase (.coded severity k message x.span) x.start :=
    located_single rfl rfl rfl hx
  exact ascends_one hlo hhi (hk ▸ hd)

theorem unless_ascends {cs : List Char} {phase : Code.Phase} {lo hi : Nat} {known : Bool}
    {d : Diagnostic} (hle : lo ≤ hi) (h : Ascends cs phase lo hi [d]) :
    Ascends cs phase lo hi (if known then [] else [d]) := by
  cases known with
  | true => exact hle
  | false => exact h

section
variable {cs : List Char} {key : Tree} {value : Option Tree} {hi : Nat}

theorem connection_ascends (hk : Bounded cs key.span) :
    Ascends cs .validate key.start key.start (checkConnectionKey key) := by
  unfold checkConnectionKey
  split
  · exact Nat.le_refl _
  · exact unless_ascends (Nat.le_refl _)
      (coded_ascends rfl hk (Nat.le_refl _) (Nat.le_refl _))

variable (hkey : key.start ≤ hi)
  (hv : ∀ v, value = some v → Bounded cs v.span ∧ key.start ≤ v.start ∧ v.start ≤ hi)

include hkey hv

theorem style_ascends (palette : Palette) (word : String) (hk : Bounded cs key.span) :
    Ascends cs .validate key.start hi (checkStyle palette word key value) := by
  unfold checkStyle
  split
  · exact coded_ascends rfl hk (Nat.le_refl _) hkey
  · split
    · exact hkey
    · next v =>
      obtain ⟨hb, hlo, hhi⟩ := hv v rfl
      split
      · exact hkey
      · exact coded_ascends rfl hb hlo hhi

theorem shape_ascends (path : List String) :
    Ascends cs .validate key.start hi (checkShape path value) := by
  unfold checkShape
  split
  · exact hkey
  · next v =>
    obtain ⟨hb, hlo, hhi⟩ := hv v rfl
    exact unless_ascends hkey (coded_ascends rfl hb hlo hhi)

theorem path_ascends (palette : Palette) (checks : Checks) (path : List String)
    (hk : Bounded cs key.span) :
    Ascends cs .validate key.start hi (checkPath palette checks path key value) := by
  unfold checkPath
  split
  · exact style_ascends hkey hv palette _ hk
  · split
    · exact shape_ascends hkey hv path
    · exact hkey

end

/-- A property is its key, then at most a value, then at most a block. -/
structure Parts (front middle rest : List Tree) : Prop where
  key : signature front = [.node .propertyKey]
  value : Labelled .attributeValue (signature middle)
  block : Bodied .blockDefinition (signature rest)

theorem property_parts {s : Nat} {cs : List Tree} (h : Lawful (.node .property s cs)) :
    ∃ front middle rest, cs = front ++ middle ++ rest ∧ Parts front middle rest := by
  obtain ⟨w, hw, l, b, rfl, hl, hb⟩ := h.conforms rfl
  have hw : cs.filterMap symbol? = ([.node .propertyKey] ++ l) ++ b := hw
  obtain ⟨head, rest, rfl, hhead, rfl⟩ := List.filterMap_eq_append_iff.mp hw
  obtain ⟨front, middle, rfl, hfront, rfl⟩ := List.filterMap_eq_append_iff.mp hhead
  exact ⟨front, middle, rest, rfl, hfront, hl, hb⟩

theorem labelled_kind {k k' : NodeKind} {w : List Symbol} (h : Labelled k w)
    (hk : .node k' ∈ w) : k' = k := by
  cases h with
  | bare => simp at hk
  | colon => simp at hk
  | full => simpa using hk

theorem bodied_kind {k k' : NodeKind} {w : List Symbol} (h : Bodied k w) (hk : .node k' ∈ w) :
    k' = k ∨ k' = .error := by
  cases h with
  | none => simp at hk
  | body => exact .inl (by simpa using hk)
  | error => exact .inr (by simpa using hk)

section
variable {cs : List Char} {s : Nat} {front middle rest : List Tree} (h : Parts front middle rest)

include h

theorem head_quiet : Quiet (front ++ middle) := by
  apply signature_quiet
  intro k hk
  rw [signature_append, h.key] at hk
  rcases List.mem_append.mp hk with hk | hk
  · obtain rfl : k = .propertyKey := by simpa using hk
    rfl
  · obtain rfl := labelled_kind h.value hk
    rfl

theorem key_front {key : Tree} (hkey : key ∈ front ++ middle ++ rest)
    (hk : key.kind? = some .propertyKey) : key ∈ front := by
  rcases List.mem_append.mp hkey with hkey | hkey
  · rcases List.mem_append.mp hkey with hkey | hkey
    · exact hkey
    · cases labelled_kind h.value (mem_signature_node _ key middle hkey hk)
  · rcases bodied_kind h.block (mem_signature_node _ key rest hkey hk) with hk | hk <;> cases hk

theorem value_middle {value : Tree} (hvalue : value ∈ front ++ middle ++ rest)
    (hk : value.kind? = some .attributeValue) : value ∈ middle := by
  rcases List.mem_append.mp hvalue with hvalue | hvalue
  · rcases List.mem_append.mp hvalue with hvalue | hvalue
    · have hs := mem_signature_node _ value front hvalue hk
      simp [h.key] at hs
    · exact hvalue
  · rcases bodied_kind h.block (mem_signature_node _ value rest hvalue hk) with hk | hk <;> cases hk

theorem property_ascends (palette : Palette) (checks : Checks) (owner : Owner)
    (hp : Placed s (front ++ middle ++ rest))
    (hb : ∀ n ∈ nodesAll (front ++ middle ++ rest), Bounded cs n.span) :
    Ascends cs .validate s (stopAll s (front ++ middle))
      (checkProperty palette checks owner (.node .property s (front ++ middle ++ rest))) := by
  obtain ⟨hhead, -⟩ := placed_split hp
  obtain ⟨hfront, hmiddle⟩ := placed_split hhead
  unfold checkProperty
  split
  · rw [placed_stop hhead]
    exact Nat.le_add_right _ _
  · next key hkey =>
    have hkind : key.kind? = some .propertyKey := by simpa [isKind] using List.find?_some hkey
    have hmem := key_front h (List.mem_of_find?_eq_some hkey) hkind
    have hnode : key ∈ nodesAll front := mem_nodesAll hmem (node_self hkind)
    have hk : Bounded cs key.span := hb key (by simp [hnode])
    obtain ⟨hlo, hhi⟩ := placed_bounds hfront hnode
    have hstart : key.start ≤ stopAll s front := hk.ordered.trans hhi
    have hstop : stopAll s front ≤ stopAll s (front ++ middle) := by
      rw [stopAll_append, placed_stop hmiddle]
      exact Nat.le_add_right _ _
    have hvalue : ∀ v, (Tree.node .property s (front ++ middle ++ rest)).value? = some v →
        Bounded cs v.span ∧ key.start ≤ v.start ∧ v.start ≤ stopAll s (front ++ middle) := by
      intro v hv
      have hkind : v.kind? = some .attributeValue := by simpa [isKind] using List.find?_some hv
      have hmem := value_middle h (List.mem_of_find?_eq_some hv) hkind
      have hnode : v ∈ nodesAll middle := mem_nodesAll hmem (node_self hkind)
      have hb : Bounded cs v.span := hb v (by simp [hnode])
      obtain ⟨hlo, hhi⟩ := placed_bounds hmiddle hnode
      rw [stopAll_append]
      exact ⟨hb, hstart.trans hlo, hb.ordered.trans hhi⟩
    have hpath := path_ascends (hstart.trans hstop) hvalue palette checks (fullPath owner key) hk
    refine ascends_lower (ascends_append ?_ hpath) hlo
    split
    · exact connection_ascends hk
    · exact Nat.le_refl _

end

theorem row_ascends (palette : Palette) (checks : Checks) {text : List Char} (xs : List Tree) :
    ∀ offset owner,
    Placed offset xs → (∀ n ∈ nodesAll xs, Lawful n) →
    (∀ n ∈ nodesAll xs, Bounded text n.span) →
      Ascends text .validate offset (stopAll offset xs)
        (diagnosticsAll palette checks owner xs) := by
  induction xs using suffix_induction with
  | nil => exact fun offset _ _ _ _ => Nat.le_refl offset
  | token t xs ih =>
    intro offset owner hp hl hb
    obtain ⟨rfl, hrow⟩ := (placed_token offset t xs).mp hp
    exact ascends_lower (ih t.stop owner hrow hl hb) (Nat.le_add_right _ _)
  | node k s cs xs ihc ih =>
    intro offset owner hp hl hb
    obtain ⟨rfl, hcs, hxs⟩ := (placed_node offset k s cs xs).mp hp
    obtain ⟨hself, hlc, hlx⟩ := forall_nodes_cons.mp hl
    obtain ⟨-, hbc, hbx⟩ := forall_nodes_cons.mp hb
    refine ascends_append ?_ (ih (stopAll s cs) owner hxs hlx hbx)
    rw [diagnosticsUnder]
    by_cases hk : k = .property
    · subst hk
      rw [if_pos rfl]
      -- key and value hold no property, so what is reported below comes from the children behind
      -- them, and the bound for that row starts where they end
      obtain ⟨front, middle, rest, rfl, hparts⟩ := property_parts hself
      obtain ⟨hlhead, hlrest⟩ := forall_nodes_append.mp hlc
      obtain ⟨hbhead, hbrest⟩ := forall_nodes_append.mp hbc
      have hnested := ihc rest (List.suffix_append _ _) (stopAll s (front ++ middle))
        (ownerBelow owner (.node .property s (front ++ middle ++ rest))) (placed_split hcs).2
        hlrest hbrest
      rw [← stopAll_append] at hnested
      rw [reports_append, quiet_silent palette checks _ _ hlhead (head_quiet hparts),
        List.nil_append]
      exact ascends_append (property_ascends hparts palette checks owner hcs hbc) hnested
    · rw [if_neg hk, List.nil_append]
      exact ihc cs List.suffix_rfl s _ hcs hlc hbc

theorem validate_ascends (palette : Palette) (checks : Checks) (text : String) :
    ∃ hi, Ascends text.toList .validate 0 hi (validate palette checks (parse text).tree) := by
  obtain ⟨hplaced, -, hnodes⟩ := Lossless.root_placed text
  have hb : ∀ n ∈ (parse text).tree.nodes, Bounded text.toList n.span := by
    intro n hn
    obtain ⟨before, after, htokens, hspan⟩ := Lossless.nodes_covered text n hn
    rw [hspan, spelled_append]
    apply bounded_piece
    rw [← tokenize_spells text, htokens, spelled_append, spelled_append]
  have hrow := row_ascends palette checks [(parse text).tree] 0 .nothing hplaced
    (hnodes ▸ fun n hn => (parse_lawful text n hn).1) (hnodes ▸ hb)
  have hone : diagnosticsAll palette checks .nothing [(parse text).tree] =
      validate palette checks (parse text).tree := List.append_nil _
  exact ⟨_, hone ▸ hrow⟩

def series : Code.Phase → List Char
  | .scan => ['E', '0']
  | .parse => ['E', '1']
  | .validate => ['E', '2']

theorem text_series (k : Code) : series k.phase <+: k.text.toList := by
  cases k <;> decide +kernel

/-- Reports whose codes begin alike, in the order of their primary spans. -/
structure Group (start : List Char) (ds : List Diagnostic) : Prop where
  codes : ∀ d ∈ ds, ∃ k, d.code = some k ∧ start <+: k.text.toList
  order : ds.Pairwise Precedes

/-- A report with a primary label, whose labels all lie in the text between two characters. -/
structure Inside (text : String) (d : Diagnostic) : Prop where
  primary : ∃ l ∈ d.labels, l.primary = true
  ordered : ∀ l ∈ d.labels, l.span.start ≤ l.span.stop ∧ l.span.stop ≤ text.utf8ByteSize
  valid : ∀ l ∈ d.labels, String.Pos.Raw.IsValid text ⟨l.span.start⟩ ∧
    String.Pos.Raw.IsValid text ⟨l.span.stop⟩

theorem boundary_inside {text : String} {o : Nat} (h : Boundary text.toList o) :
    String.Pos.Raw.IsValid text ⟨o⟩ ∧ o ≤ text.utf8ByteSize := by
  obtain ⟨before, after, hcs, rfl⟩ := h
  refine ⟨Lossless.boundary_valid hcs, ?_⟩
  rw [← byteSize_toList, hcs, byteSize_append]
  exact Nat.le_add_right _ _

theorem located_inside {text : String} {phase : Code.Phase} {d : Diagnostic} {o : Nat}
    (h : Located text.toList phase d o) : Inside text d := by
  constructor
  · obtain ⟨s, hs, -⟩ := h.primary
    obtain ⟨l, hl, -⟩ := Option.map_eq_some_iff.mp hs
    exact ⟨l, List.mem_of_find?_eq_some hl, List.find?_some hl⟩
  · intro l hl
    exact ⟨(h.labels l hl).ordered, (boundary_inside (h.labels l hl).stop).2⟩
  · intro l hl
    exact ⟨(boundary_inside (h.labels l hl).start).1, (boundary_inside (h.labels l hl).stop).1⟩

theorem ascends_group {cs : List Char} {phase : Code.Phase} {lo hi : Nat} {ds : List Diagnostic}
    (h : Ascends cs phase lo hi ds) : Group (series phase) ds := by
  refine ⟨?_, ascends_pairwise h⟩
  intro d hd
  obtain ⟨o, -, hl⟩ := ascends_located h d hd
  obtain ⟨k, hk, rfl⟩ := hl.code
  exact ⟨k, hk, text_series k⟩

theorem analyze_located {palette : Palette} {checks : Checks} {text : String} {d : Diagnostic}
    (hd : d ∈ (analyze palette checks text).diagnostics) :
    ∃ phase o, Located text.toList phase d o := by
  obtain ⟨_, hscan⟩ := tokenize_ascends text
  obtain ⟨_, hgrammar⟩ := document_ascends text
  obtain ⟨_, hvalidation⟩ := validate_ascends palette checks text
  rcases List.mem_append.mp hd with hd | hd
  · rcases List.mem_append.mp hd with hd | hd
    · obtain ⟨o, -, hl⟩ := ascends_located hscan d hd
      exact ⟨_, o, hl⟩
    · obtain ⟨o, -, hl⟩ := ascends_located hgrammar d hd
      exact ⟨_, o, hl⟩
  · obtain ⟨o, -, hl⟩ := ascends_located hvalidation d hd
    exact ⟨_, o, hl⟩

/-- An analysis reports in three groups, each in the order of the text, and inside the text. -/
theorem analyze_ordered (palette : Palette) (checks : Checks) (text : String) :
    (∃ scan grammar validation,
      (analyze palette checks text).diagnostics = scan ++ grammar ++ validation ∧
        Group ['E', '0'] scan ∧ Group ['E', '1'] grammar ∧ Group ['E', '2'] validation) ∧
      ∀ d ∈ (analyze palette checks text).diagnostics, Inside text d := by
  obtain ⟨_, hscan⟩ := tokenize_ascends text
  obtain ⟨_, hgrammar⟩ := document_ascends text
  obtain ⟨_, hvalidation⟩ := validate_ascends palette checks text
  constructor
  · exact ⟨_, _, _, rfl, ascends_group hscan, ascends_group hgrammar, ascends_group hvalidation⟩
  · intro d hd
    obtain ⟨_, _, hl⟩ := analyze_located hd
    exact located_inside hl

end DiagramText.DiagnosticOrder
