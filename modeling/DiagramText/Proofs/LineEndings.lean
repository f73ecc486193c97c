import DiagramText.Color.Reader
import DiagramText.Proofs.EditedAnalysis
import DiagramText.Proofs.Guards
import DiagramText.Session

/-!
# Line endings

A text means the same whether its lines end in a newline alone or in a
carriage return and a newline: the analysis finds the same faults, and the
outline has the same shapes and edges. Newlines inside a block literal or a
value are part of what these say, so the text must have none there.
-/

set_option autoImplicit false

namespace DiagramText.LineEndings
open Scanning Trimming CarriageReturns Guards Edit EditedAnalysis DiagramText.Tree Widths Lossless
  Splitting

def returned (cs : List Char) : List Char :=
  cs.flatMap fun c => if c = '\n' then ['\r', '\n'] else [c]

def crlf (text : String) : String := .ofList (returned text.toList)

theorem returned_newline (cs : List Char) :
    returned ('\n' :: cs) = '\r' :: '\n' :: returned cs := rfl

theorem returned_other {c : Char} (hc : c ≠ '\n') (cs : List Char) :
    returned (c :: cs) = c :: returned cs := by
  simp [returned, hc]

theorem returned_stripped {cs : List Char} (h : '\r' ∉ cs) :
    Paired (returned cs) ∧ strip (returned cs) = cs := by
  induction cs with
  | nil => exact ⟨trivial, rfl⟩
  | cons c cs ih =>
    rw [List.mem_cons, not_or] at h
    obtain ⟨hpaired, hstrip⟩ := ih h.2
    by_cases hc : c = '\n'
    · subst hc
      rw [returned_newline, strip_return, strip_cons (by decide), hstrip]
      exact ⟨⟨fun _ => rfl, fun hn => absurd hn (by decide), hpaired⟩, rfl⟩
    · rw [returned_other hc, strip_cons (Ne.symm h.1), hstrip]
      exact ⟨⟨fun hr => absurd hr.symm h.1, hpaired⟩, rfl⟩

theorem crlf_stripped {text : String} (h : '\r' ∉ text.toList) :
    Paired (crlf text).toList ∧ withoutReturns (crlf text) = text := by
  obtain ⟨hpaired, hstrip⟩ := returned_stripped h
  rw [withoutReturns, crlf, String.toList_ofList, hstrip, String.ofList_toList]
  exact ⟨hpaired, rfl⟩

/-- The text, read as lines that end in newlines, has no lexical fault, and no block literal and
no value in it goes over several lines. -/
structure Plain (text : String) : Prop where
  readable : (tokenize text).2 = []
  blocks : ∀ t ∈ (tokenize text).1, t.kind = .blockString → '\n' ∉ t.text
  values : ∀ n ∈ (parse text).tree.nodes, n.kind? = some .attributeValue → '\n' ∉ n.chars

theorem newline_kept {ts us : List Token} {t : Token} (ht : t ∈ us) (hn : '\n' ∈ t.text) :
    ∃ v ∈ (returnless ts).row us, v.kind = t.kind ∧ '\n' ∈ v.text := by
  have hstrip : '\n' ∈ strip t.text := List.mem_filter.mpr ⟨hn, rfl⟩
  have hkept := @token_kept ts t (List.ne_nil_of_mem hstrip)
  exact ⟨_, List.mem_filterMap.mpr ⟨t, ht, hkept⟩, rfl, hstrip⟩

theorem clean_whole {text : String} {t : Token} (ht : t ∈ (tokenize text).1)
    (h : '\r' ∉ t.text) : Whole (returnless (tokenize text).1) t := by
  have hne := tiled_filled (tokenize_covers text).1 t ht
  have hstrip := strip_clean h
  exact ⟨_, token_kept (by rwa [hstrip]), rfl, hstrip⟩

section

variable {text : String} (paired : Paired text.toList) (plain : Plain (withoutReturns text))

include paired plain

theorem tokens_guarded : Guarded (tokenize text).1 := by
  obtain ⟨hrow, hsilent, -⟩ := tokenize_stripped paired
  have hreadable := Locality.drain_readable (.ofText text) (hsilent plain.readable)
  refine drain_guarded (.ofText text) paired hreadable fun t ht hk hn => ?_
  obtain ⟨v, hv, hkind, hnewline⟩ := @newline_kept (tokenize text).1 _ t ht hn
  exact plain.blocks v (hrow ▸ hv) (hkind.trans hk) hnewline

theorem tokens_fit :
    (returnless (tokenize text).1).Fits text.utf8ByteSize (tokenize text).1 :=
  guarded_fits (tokenize_covers text).1 List.suffix_rfl (tokenize_covers text)
    (tokens_guarded paired plain)

theorem parse_stripped :
    (parse (withoutReturns text)).tree = (returnless (tokenize text).1).node (parse text).tree ∧
      (parse (withoutReturns text)).diagnostics =
        (parse text).diagnostics.map (returnless (tokenize text).1).diagnostic := by
  obtain ⟨hrow, hsilent, hsize⟩ := tokenize_stripped paired
  have hfaults : (tokenize (withoutReturns text)).2 =
      (tokenize text).2.map (returnless (tokenize text).1).diagnostic := by
    rw [plain.readable, hsilent plain.readable]
    rfl
  obtain ⟨htree, hdiagnostics⟩ :=
    parse_edited (tokens_fit paired plain) (offset_zero _) hrow hfaults hsize
  exact ⟨(List.cons.inj htree).1, hdiagnostics⟩

theorem values_plain {n : Tree} (hn : n ∈ (parse text).tree.nodes)
    (hk : n.kind? = some .attributeValue) : '\n' ∉ n.chars := by
  intro hnewline
  obtain ⟨htree, -⟩ := parse_stripped paired plain
  have hmem : (returnless (tokenize text).1).node n ∈ (parse (withoutReturns text)).tree.nodes := by
    rw [htree, nodes_node]
    exact List.mem_map_of_mem hn
  obtain ⟨t, ht, hchar⟩ := List.mem_flatMap.mp hnewline
  obtain ⟨v, hv, -, hkept⟩ := @newline_kept (tokenize text).1 _ t ht hchar
  refine plain.values _ hmem ((node_kind n).trans hk) ?_
  rw [chars, node_tokens hk]
  exact List.mem_flatMap.mpr ⟨v, hv, hkept⟩

theorem nodes_legible :
    ∀ n ∈ (parse text).tree.nodes, Legible (returnless (tokenize text).1) n := by
  have hguarded := tokens_guarded paired plain
  have htame := fits_tame (tokens_fit paired plain)
  intro n hn
  have hneat := parse_neat hguarded n hn
  obtain ⟨before, after, hcovered, -⟩ := nodes_covered text n hn
  have hin : ∀ t ∈ n.tokens, t ∈ (tokenize text).1 := fun t ht => by simp [hcovered, ht]
  refine ⟨fun t ht => htame t (hin t ht), fun hk piece hpiece t ht => ?_, fun hk t ht => ?_⟩
  · have hmem := split_mem hpiece t (trim_mem ht)
    exact clean_whole (hin t hmem) (hneat.path hk piece hpiece t ht)
  · refine clean_whole (hin t ht) ?_
    rcases hk with hk | hk
    · exact hneat.label hk t ht
    · exact hneat.value hk (values_plain paired plain hn hk) t ht

theorem analyze_stripped (palette : Palette) (checks : Checks) :
    (analyze palette checks (withoutReturns text)).diagnostics.map verdict =
        (analyze palette checks text).diagnostics.map verdict ∧
      Agree (Outline.ofTree (parse (withoutReturns text)).tree)
        (Outline.ofTree (parse text).tree) := by
  obtain ⟨htree, hdiagnostics⟩ := parse_stripped paired plain
  have hlegible := nodes_legible paired plain
  constructor
  · simp only [analyze, List.map_append, hdiagnostics, htree,
      validate_edited palette checks hlegible,
      List.map_map]
    rfl
  · rw [htree]
    exact outline_edited hlegible

end

/-- A readable text without carriage returns, in which no block literal and no value goes over
several lines, has the same analysis and the same outline when its lines end in a carriage
return and a newline, up to spans. -/
theorem analyze_crlf (palette : Palette) (checks : Checks) (text : String)
    (unreturned : '\r' ∉ text.toList)
    (readable : (tokenize text).2 = [])
    (blocks : ∀ t ∈ (tokenize text).1, t.kind = .blockString → '\n' ∉ t.text)
    (values : ∀ n ∈ (parse text).tree.nodes,
      n.kind? = some .attributeValue → '\n' ∉ n.chars) :
    (analyze palette checks (crlf text)).diagnostics.map
          (fun d => (d.severity, d.code, d.message)) =
        (analyze palette checks text).diagnostics.map
          (fun d => (d.severity, d.code, d.message)) ∧
      (Outline.ofTree (analyze palette checks (crlf text)).tree).shapes.map
          (fun s => (s.id, s.label, s.form)) =
        (Outline.ofTree (analyze palette checks text).tree).shapes.map
          (fun s => (s.id, s.label, s.form)) ∧
      (Outline.ofTree (analyze palette checks (crlf text)).tree).edges.map
          (fun d => (d.source, d.connector, d.target, d.label)) =
        (Outline.ofTree (analyze palette checks text).tree).edges.map
          (fun d => (d.source, d.connector, d.target, d.label)) := by
  obtain ⟨hpaired, hstripped⟩ := crlf_stripped unreturned
  have hplain : Plain (withoutReturns (crlf text)) := by
    rw [hstripped]
    exact ⟨readable, blocks, values⟩
  obtain ⟨hverdicts, hagree⟩ := analyze_stripped hpaired hplain palette checks
  rw [hstripped] at hverdicts hagree
  exact ⟨hverdicts.symm, hagree.shapes.symm, hagree.edges.symm⟩

theorem commented_lines_crlf :
    let p := analyze Color.read {} (crlf "a.\"\"\"\n\"\"\"b: one #\na -> c: up \nc.shape: o \n[\n")
    p.diagnostics.map (fun d => (d.severity, d.code, d.message)) =
        [(.error, some .unexpectedToken, "unexpected `[`"),
          (.warning, some .unknownShapeType, "unknown shape type `o`")] ∧
      (Outline.ofTree p.tree).shapes.map (fun s => (s.id, s.label, s.form)) =
        [(⟨"a"⟩, none, none), (⟨"a.b"⟩, some "one", none), (⟨"c"⟩, none, some "o")] ∧
      (Outline.ofTree p.tree).edges.map (fun d => (d.source, d.connector, d.target, d.label)) =
        [(⟨"a"⟩, .forward, ⟨"c"⟩, some "up")] := by
  obtain ⟨hdiagnostics, hshapes, hedges⟩ := analyze_crlf Color.read {}
    "a.\"\"\"\n\"\"\"b: one #\na -> c: up \nc.shape: o \n[\n"
    (by decide +kernel) (by decide +kernel) (by decide +kernel) (by decide +kernel)
  exact ⟨hdiagnostics.trans (by decide +kernel), hshapes.trans (by decide +kernel),
    hedges.trans (by decide +kernel)⟩

end DiagramText.LineEndings
