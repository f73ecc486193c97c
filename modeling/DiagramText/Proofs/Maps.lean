import DiagramText.Color.Reader
import DiagramText.Proofs.DiagnosticOrder
import DiagramText.Proofs.EditedAnalysis
import DiagramText.Proofs.EntryLines

/-!
# Maps and dotted keys

A reserved word can be given a block of entries, or each entry can carry the
word in front of its key. Either way the grammar reads one property for each
entry, and a block passes its path on to the keys inside it, so the checks see
the same paths and values. The block itself has no value to check. The same
holds inside the block of a connection, whose keys have to be reserved words.
-/

set_option autoImplicit false

namespace DiagramText.Maps
open Grammar BareWords EntryLines Validation EditedAnalysis
open Rendering (Word)

/-- What the checks say about a row of trees, wherever it stands. -/
def report (palette : Palette) (checks : Checks) (owner : Owner) (xs : List Tree) :
    List (Severity × Option Code × String) :=
  (diagnosticsAll palette checks owner xs).map verdict

section

variable (palette : Palette) (checks : Checks) (owner : Owner)

theorem report_append (xs ys : List Tree) :
    report palette checks owner (xs ++ ys) =
      report palette checks owner xs ++ report palette checks owner ys := by
  rw [report, DiagnosticOrder.reports_append, List.map_append]
  rfl

theorem report_cons (x : Tree) (xs : List Tree) :
    report palette checks owner (x :: xs) =
      report palette checks owner [x] ++ report palette checks owner xs :=
  report_append palette checks owner [x] xs

theorem report_token (t : Token) (xs : List Tree) :
    report palette checks owner (.token t :: xs) = report palette checks owner xs := rfl

theorem report_tokens (ts : List Token) : report palette checks owner (ts.map .token) = [] := by
  induction ts with
  | nil => rfl
  | cons t ts ih => exact ih

theorem report_node {k : NodeKind} (hk : k ≠ .property) (s : Nat) (cs xs : List Tree) :
    report palette checks owner (.node k s cs :: xs) =
      report palette checks (ownerBelow owner (.node k s cs)) cs ++
        report palette checks owner xs := by
  simp [report, diagnosticsAll, diagnosticsUnder, hk]

theorem report_property (s : Nat) (cs xs : List Tree) :
    report palette checks owner (.node .property s cs :: xs) =
      (checkProperty palette checks owner (.node .property s cs)).map verdict ++
        (report palette checks (ownerBelow owner (.node .property s cs)) cs ++
          report palette checks owner xs) := by
  simp [report, diagnosticsAll, diagnosticsUnder]

theorem report_key {kind : NodeKind} (hk : kind ≠ .property) (k : BarePath) (o : Nat)
    (xs : List Tree) :
    report palette checks owner (k.tree kind o :: xs) = report palette checks owner xs := by
  rw [BarePath.tree, report_node palette checks owner hk, report_tokens]
  rfl

theorem report_block (o : Nat) (ss : List Clause) :
    report palette checks owner (blockTrees o ss) =
      report palette checks owner (ledTrees (o + 1 + 1) ss) := by
  have hblock : ownerBelow owner (blockTree (o + 1) ss) = owner := rfl
  rw [blockTrees, report_token]
  rw [blockTree] at hblock ⊢
  rw [report_node palette checks owner (by decide), hblock, report_token, report_append,
    report_append]
  simp [report, diagnosticsAll, diagnosticsUnder]

theorem key_texts (kind : NodeKind) (k : BarePath) (o : Nat) :
    (k.tree kind o).segments = k.segments := by
  rw [Tree.segments, key_segments, List.map_map]
  exact List.map_id _

theorem key_whole (kind : NodeKind) {k : BarePath} (h : Keyword.isReserved k.first.text = true)
    (o : Nat) : (k.tree kind o).keywordPath = k.segments := by
  have hindex : (k.tree kind o).keywordIndex? = some 0 := by
    rw [Tree.keywordIndex?, key_segments]
    simp [BarePath.segments, Segment.isKeyword, h, List.findIdx?_cons]
  rw [Tree.keywordPath, key_texts, hindex]
  rfl

def Free (owner : Owner) : Prop := owner = .nothing ∨ owner = .connection

theorem full_path {owner : Owner} (ho : Free owner) {k : BarePath}
    (h : Keyword.isReserved k.first.text = true) (o : Nat) :
    fullPath owner (k.tree .propertyKey o) = k.segments := by
  rcases ho with rfl | rfl <;> exact key_whole .propertyKey h o

theorem connection_key {k : BarePath} (h : Keyword.isReserved k.first.text = true) (o : Nat) :
    checkConnectionKey (k.tree .propertyKey o) = [] := by
  rw [checkConnectionKey, key_texts]
  simp [BarePath.segments, h]

theorem path_unvalued (word : String) (key : Tree) :
    checkPath palette checks [word] key none = [] := by
  have hstyle : styleAttribute? [word] = none := by simp [styleAttribute?]
  rw [checkPath, hstyle, ite_self]
  simp [checkShape]

theorem report_entry {k : BarePath}
    (hk : owner = .connection → Keyword.isReserved k.first.text = true)
    (value : String) (o : Nat) :
    report palette checks owner [(entryClause k value).tree o] =
      (checkPath palette checks (fullPath owner (k.tree .propertyKey o)) (k.tree .propertyKey o)
        (some (valueTree (o + width k.pieces + 2) value))).map verdict := by
  have hkey : ((entryClause k value).tree o).key? = some (k.tree .propertyKey o) := rfl
  have hvalue : ((entryClause k value).tree o).value? =
      some (valueTree (o + width k.pieces + 2) value) := rfl
  have hconnection : (if checks.styles ∧ owner = .connection then
      checkConnectionKey (k.tree .propertyKey o) else []) = [] := by
    split
    · next h => exact connection_key (hk h.2) o
    · rfl
  have hcheck : checkProperty palette checks owner ((entryClause k value).tree o) =
      checkPath palette checks (fullPath owner (k.tree .propertyKey o)) (k.tree .propertyKey o)
        (some (valueTree (o + width k.pieces + 2) value)) := by
    simp only [checkProperty, hkey, hvalue, hconnection, List.nil_append]
  rw [← hcheck, entryClause, report_property, report_key _ _ _ (by decide), report_token,
    report_token, valueTree, report_node _ _ _ (by decide), report_token]
  exact List.append_nil _

theorem report_map {owner : Owner} (ho : Free owner) {k : Identifier}
    (hk : Keyword.isReserved k.text = true) (ss : List Clause) (o : Nat) :
    report palette checks owner [(mapClause ⟨k, []⟩ ss).tree o] =
      report palette checks (.property [k.text])
        (ledTrees (o + width (BarePath.pieces ⟨k, []⟩) + 1 + 1 + 1) ss) := by
  have hpath := @full_path owner ho ⟨k, []⟩ hk o
  have hkey : ((mapClause ⟨k, []⟩ ss).tree o).key? = some (BarePath.tree .propertyKey o ⟨k, []⟩) :=
    rfl
  have hvalue : ((mapClause ⟨k, []⟩ ss).tree o).value? = none := rfl
  have hcheck : checkProperty palette checks owner ((mapClause ⟨k, []⟩ ss).tree o) = [] := by
    have hnone := path_unvalued palette checks k.text (BarePath.tree .propertyKey o ⟨k, []⟩)
    simp only [checkProperty, hkey, hvalue, hpath, @connection_key ⟨k, []⟩ hk, ite_self]
    exact hnone
  have howner : ownerBelow owner ((mapClause ⟨k, []⟩ ss).tree o) = .property [k.text] :=
    congrArg Owner.property hpath
  rw [mapClause] at hcheck howner ⊢
  rw [report_property, hcheck, howner, report_key _ _ _ (by decide), report_token, report_block]
  exact List.append_nil _

theorem report_link (a b : Identifier) (ss : List Clause) (o : Nat) :
    report palette checks owner [(linkClause a b ss).tree o] = report palette checks .connection
      (ledTrees (o + width [.bare a] + width (arrowPieces b) + 1 + 1 + 1) ss) := by
  have howner : ownerBelow owner ((linkClause a b ss).tree o) = .connection := rfl
  rw [linkClause] at howner ⊢
  rw [report_node _ _ _ (by decide), howner, report_key _ _ _ (by decide), report_append,
    arrowTrees, report_token, report_token, report_token, report_key _ _ _ (by decide),
    report_token, report_block]
  exact List.append_nil _

theorem entry_agrees {owner : Owner} (ho : Free owner) {k : Identifier}
    (hk : Keyword.isReserved k.text = true) (e : Entry) (o m : Nat) :
    report palette checks (.property [k.text]) [(entryClause e.key e.value).tree o] =
      report palette checks owner [(entryClause (e.key.under k) e.value).tree m] := by
  have hpath : fullPath owner ((e.key.under k).tree .propertyKey m) = k.text :: e.key.segments :=
    @full_path owner ho (e.key.under k) hk m
  have hinner : fullPath (.property [k.text]) (e.key.tree .propertyKey o) =
      k.text :: e.key.segments := by
    rw [fullPath, key_texts]
    rfl
  have hentry := @report_entry palette checks (.property [k.text]) e.key (by simp) e.value o
  have hdotted := @report_entry palette checks owner (e.key.under k) (fun _ => hk) e.value m
  rw [hentry, hdotted, hpath, hinner]
  apply path_edited
  simp [valueTree, RoundTrip.literal_cooked]

/-- The entries in the block of a word. -/
def entries (es : List Entry) : List Clause := es.map fun e => entryClause e.key e.value

def dotted (k : Identifier) (es : List Entry) : List Clause :=
  es.map fun e => entryClause (e.key.under k) e.value

theorem entries_agree {owner : Owner} (ho : Free owner) {k : Identifier}
    (hk : Keyword.isReserved k.text = true) (es : List Entry) (o m : Nat) :
    report palette checks (.property [k.text]) (ledTrees o (entries es)) =
      report palette checks owner (ledTrees m (dotted k es)) := by
  induction es generalizing o m with
  | nil => rfl
  | cons e es ih =>
    rw [entries, dotted, List.map_cons, List.map_cons, ledTrees, ledTrees, report_token,
      report_token, report_cons, report_cons palette checks owner,
      entry_agrees palette checks ho hk e _ (m + 1)]
    exact congrArg _ (ih _ _)

theorem row_agrees {owner : Owner} (ho : Free owner) {k : Identifier}
    (hk : Keyword.isReserved k.text = true) (es : List Entry) (o m : Nat) :
    report palette checks (.property [k.text]) (ledTrees o (entries es)) =
      report palette checks owner (clauseTrees m (dotted k es)) := by
  cases es with
  | nil => rfl
  | cons e es =>
    rw [entries, dotted, List.map_cons, List.map_cons, ledTrees, clauseTrees, report_token,
      report_cons, report_cons palette checks owner, entry_agrees palette checks ho hk e _ m]
    exact congrArg _ (entries_agree palette checks ho hk es _ _)

end

/-- The two texts are read without a report, and every choice of checks says the same about
them. -/
structure SameReports (palette : Palette) (t u : String) : Prop where
  first : (parse t).diagnostics = []
  second : (parse u).diagnostics = []
  checked : ∀ checks : Checks,
    (validate palette checks (parse t).tree).map (fun d => (d.severity, d.code, d.message)) =
      (validate palette checks (parse u).tree).map (fun d => (d.severity, d.code, d.message))

theorem validate_document (palette : Palette) (final : Bool) {lines : List String}
    {ss : List Clause}
    (hlines : ledChars lines = spell (led ss)) (h : ∀ s ∈ ss, Stands maxNesting .document s)
    (checks : Checks) :
    (validate palette checks (parse (document final lines)).tree).map verdict =
      report palette checks .nothing (clauseTrees 0 ss) := by
  have hfinal (o : Nat) : report palette checks .nothing (finalTrees final o) = [] := by
    cases final <;> rfl
  have hroot (xs : List Tree) :
      (validate palette checks (.node .document 0 xs)).map verdict =
        report palette checks .nothing xs := by
    simp [validate, diagnosticsUnder, report, ownerBelow, Tree.kind?]
  rw [parse_document final hlines h, hroot, report_append, hfinal, List.append_nil]

theorem documents_alike {palette : Palette} (final : Bool) {ls ms : List String}
    {ss ts : List Clause}
    (hls : ledChars ls = spell (led ss)) (hms : ledChars ms = spell (led ts))
    (hss : ∀ s ∈ ss, Stands maxNesting .document s)
    (hts : ∀ t ∈ ts, Stands maxNesting .document t)
    (h : ∀ checks,
      report palette checks .nothing (clauseTrees 0 ss) =
        report palette checks .nothing (clauseTrees 0 ts)) :
    SameReports palette (document final ls) (document final ms) := by
  constructor
  · rw [parse_document final hls hss]
  · rw [parse_document final hms hts]
  · intro checks
    have hfirst := validate_document palette final hls hss checks
    have hsecond := validate_document palette final hms hts checks
    exact hfirst.trans ((h checks).trans hsecond.symm)

theorem entries_stand (n : Nat) (es : List Entry) : ∀ s ∈ entries es, Stands n .block s := by
  intro s hs
  obtain ⟨e, -, rfl⟩ := List.mem_map.mp hs
  exact ⟨entry_written e.key e.value, entry_reads e.key e.value (.inr rfl)⟩

theorem dotted_stand (n : Nat) {scope : Scope} {k : Identifier}
    (hk : Keyword.isReserved k.text = true) (es : List Entry) :
    ∀ s ∈ dotted k es, Stands n scope s := by
  intro s hs
  obtain ⟨e, -, rfl⟩ := List.mem_map.mp hs
  have hreserved : (e.key.under k).segments.any Keyword.isReserved = true := by
    simp [BarePath.under, BarePath.segments, hk]
  exact ⟨entry_written (e.key.under k) e.value,
    entry_reads (e.key.under k) e.value (.inl hreserved)⟩

theorem map_stands (n : Nat) {scope : Scope} {k : Identifier}
    (hk : Keyword.isReserved k.text = true) (es : List Entry) :
    ∀ s ∈ [mapClause ⟨k, []⟩ (entries es)], Stands (n + 1) scope s := by
  intro s hs
  obtain rfl := List.mem_singleton.mp hs
  have hreserved : (BarePath.segments ⟨k, []⟩).any Keyword.isReserved = true := by
    simp [BarePath.segments, hk]
  exact ⟨map_written ⟨k, []⟩ fun s hs => (entries_stand n es s hs).1,
    map_reads ⟨k, []⟩ (.inl hreserved) fun s hs => (entries_stand n es s hs).2⟩

theorem link_stands {n : Nat} {scope : Scope} (a b : Identifier) {ss : List Clause}
    (h : ∀ s ∈ ss, Stands n .block s) :
    ∀ s ∈ [linkClause a b ss], Stands (n + 1) scope s := by
  intro s hs
  obtain rfl := List.mem_singleton.mp hs
  exact ⟨link_written a b fun s hs => (h s hs).1, link_reads a b fun s hs => (h s hs).2⟩

/-- A reserved word with a block of entries is read and checked as the same entries with the word
in front of their keys, in the document and in the block of a connection. -/
theorem map_dotted_alike (palette : Palette) (k : String) (hk : Keyword.isReserved k = true)
    (es : List Entry) (a b : Identifier) (final : Bool) :
    SameReports palette (document final (mapLines k es)) (document final (dottedLines k es)) ∧
      SameReports palette (document final (connectionLines a b (mapLines k es)))
        (document final (connectionLines a b (dottedLines k es))) := by
  obtain ⟨n, rfl⟩ : ∃ n : Identifier, n.text = k := ⟨⟨k, keyword_lexeme hk⟩, rfl⟩
  have hmap := map_spelled n es
  have hdotted : ledChars (dottedLines n.text es) = spell (led (dotted n es)) :=
    led_spelled (dotted_spelled n) es
  -- a map takes one of the levels that the grammar reads, and one inside a connection takes two
  constructor
  · apply documents_alike final hmap hdotted (map_stands 255 hk es) (dotted_stand _ hk es)
    intro checks
    have hblock := report_map palette checks (.inl rfl) hk (entries es) 0
    exact hblock.trans (row_agrees palette checks (.inl rfl) hk es _ 0)
  · apply documents_alike final (connection_spelled a b hmap) (connection_spelled a b hdotted)
      (link_stands a b (map_stands 254 hk es)) (link_stands a b (dotted_stand 255 hk es))
    intro checks
    have hinside (o m : Nat) :
        report palette checks .connection (ledTrees o [mapClause ⟨n, []⟩ (entries es)]) =
          report palette checks .connection (ledTrees m (dotted n es)) := by
      have hblock := report_map palette checks (.inr rfl) hk (entries es) (o + 1)
      exact hblock.trans (entries_agree palette checks (.inr rfl) hk es _ m)
    have hfirst := report_link palette checks .nothing a b [mapClause ⟨n, []⟩ (entries es)] 0
    have hsecond := report_link palette checks .nothing a b (dotted n es) 0
    exact hfirst.trans ((hinside _ _).trans hsecond.symm)

def refused : List Entry :=
  [⟨⟨⟨"bold", by decide +kernel⟩, []⟩, "may\nbe"⟩,
    ⟨⟨⟨"arrow-head", by decide +kernel⟩, [⟨"shape", by decide +kernel⟩]⟩, "\""⟩]

theorem refused_style_alike :
    document false (mapLines "Style" refused) =
        "Style: \x7b\nbold: \"may\\nbe\"\narrow-head.shape: \"\\\"\"\n\x7d" ∧
      document false (dottedLines "Style" refused) =
        "Style.bold: \"may\\nbe\"\nStyle.arrow-head.shape: \"\\\"\"" ∧
      (validate Color.read {} (parse (document false (mapLines "Style" refused))).tree).map
          (·.code) =
        [some .invalidStyleValue, some .unknownKeyword] ∧
      SameReports Color.read (document false (mapLines "Style" refused))
        (document false (dottedLines "Style" refused)) ∧
      SameReports Color.read
        (document false (connectionLines ⟨"a", by decide +kernel⟩ ⟨"b", by decide +kernel⟩
          (mapLines "Style" refused)))
        (document false (connectionLines ⟨"a", by decide +kernel⟩ ⟨"b", by decide +kernel⟩
          (dottedLines "Style" refused))) :=
  ⟨by decide +kernel, by decide +kernel, by decide +kernel,
    map_dotted_alike Color.read "Style" (by decide +kernel) refused _ _ false⟩

end DiagramText.Maps
