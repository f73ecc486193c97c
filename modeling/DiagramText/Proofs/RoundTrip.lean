import DiagramText.Parse
import DiagramText.Proofs.Mentions
import DiagramText.Proofs.Rereading
import DiagramText.Proofs.Splitting
import Mathlib.Data.List.Infix

/-!
# Written diagrams are read back

A diagram says what its outline has to be: each path that it names brings in
its shape and the shapes above it, the last label of a shape counts, and every
link of a chain is an edge. The text of a diagram parses without a report, and
its outline is just that.
-/

set_option autoImplicit false

namespace DiagramText.RoundTrip
open Rendering Rereading Mentions Entries Splitting DiagramText.Tree
open Mention (resolve along)

inductive Fact where
  | named (scope path : List String)
  | labelled (path : List String) (text : String)
  | linked (source : List String) (connector : Connector) (target : List String)
      (label : Option String)

/-- One edge for each link of a chain, from the target of the link before it. -/
def linkFacts (scope : List String) (label : Option String) : Name → List Link → List Fact
  | _, [] => []
  | source, l :: ls =>
    .linked (scope ++ source.segments) l.connector (scope ++ l.target.segments) label ::
      linkFacts scope label l.target ls

mutual

def itemFacts (scope : List String) : Item → List Fact
  | .shape name label body =>
    .named scope name.segments ::
      (label.toList.map (.labelled (scope ++ name.segments)) ++
        bodyFacts (scope ++ name.segments) body)
  | .chain source link links label =>
    .named scope source.segments ::
      ((link :: links).map (fun l => .named scope l.target.segments) ++
        linkFacts scope label source (link :: links))

def bodyFacts (scope : List String) : Option (List Item) → List Fact
  | none => []
  | some items => rowFacts scope items

def rowFacts (scope : List String) : List Item → List Fact
  | [] => []
  | item :: items => itemFacts scope item ++ rowFacts scope items

end

namespace Fact

/-- The shapes that a fact brings in, from the outermost to the one it names. -/
def ids : Fact → List Id
  | named scope path => path.inits.tail.map fun piece => idOf (scope ++ piece)
  | _ => []

def label? (id : Id) : Fact → Option String
  | labelled path text => if idOf path = id then some text else none
  | _ => none

def edge? : Fact → Option (Id × Connector × Id × Option String)
  | linked source connector target label => some (idOf source, connector, idOf target, label)
  | _ => none

end Fact

/-- The shapes of a diagram in the order in which they are brought in. -/
def shapeIds (items : List Item) : List Id := ((rowFacts [] items).flatMap Fact.ids).eraseDups

def lastLabel? (items : List Item) (id : Id) : Option String :=
  ((rowFacts [] items).filterMap (Fact.label? id)).getLast?

def edges (items : List Item) : List (Id × Connector × Id × Option String) :=
  (rowFacts [] items).filterMap Fact.edge?

def Fact.mention : Fact → Mention
  | named scope path => .path (scopeId scope) path {}
  | labelled path text => .label (idOf path) text
  | linked source connector target label =>
    .edge ⟨idOf source, connector, idOf target, label, {}⟩

theorem literal_segment (text : String) (o : Nat) :
    Segment.ofTokens? [(Word.literal text).token o] = some ⟨text, true⟩ := by
  rw [string_segment rfl]
  simp [Word.token, Word.spelling, QuotedLiterals.unescape_write (q := '"') rfl]

theorem name_split (n : Name) (o : Nat) :
    (Segment.splitAtDots (Rendering.tokens o (nameWords n))).filterMap Segment.ofTokens? =
      n.segments.map (⟨·, true⟩) := by
  obtain ⟨first, rest⟩ := n
  induction rest generalizing first o with
  | nil =>
    have hsplit : Segment.splitAtDots (Rendering.tokens o (nameWords ⟨first, []⟩)) =
        [[(Word.literal first).token o]] := rfl
    simp [hsplit, literal_segment, Name.segments]
  | cons s rest ih =>
    have hwords : nameWords ⟨first, s :: rest⟩ =
        .literal first :: .dot :: nameWords ⟨s, rest⟩ := rfl
    have hliteral (o : Nat) : ((Word.literal first).token o).kind ≠ .dot := by
      simp [Word.token, Word.kind]
    rw [hwords, Rendering.tokens, Rendering.tokens, split_literal (hliteral o) rfl,
      List.filterMap_cons, literal_segment, ih]
    rfl

theorem name_segments (n : Name) (o : Nat) : (nameTree o n).segments = n.segments := by
  have htokens : (nameTree o n).tokens = Rendering.tokens o (nameWords n) :=
    tokensAll_map_token _
  rw [segments, pathSegments, htokens, name_split, List.map_map]
  exact List.map_id _

theorem literal_cooked {kind : NodeKind} (text : String) (o : Nat) :
    (Tree.node kind o [.token ((Word.literal text).token o)]).cooked = text := by
  have hone : (Tree.node kind o [.token ((Word.literal text).token o)]).significant =
      [(Word.literal text).token o] := rfl
  rw [cooked, hone]
  simp [Word.token, Word.kind, Word.spelling, QuotedLiterals.unescape_write (q := '"') rfl]

theorem named_id (scope : List String) (n : Name) :
    scopeId (scope ++ n.segments) = some (idOf (scope ++ n.segments)) := by
  simp [scopeId, Name.segments]

theorem name_resolves (scope : List String) (n : Name) (o : Nat) :
    resolve (scopeId scope) (nameTree o n).segments = some (idOf (scope ++ n.segments)) := by
  rw [name_segments, resolve_scope, named_id]

theorem mentionsOf_append (counts : NodeKind → Bool) (scope : Option Id) (xs ys : List Tree) :
    mentionsOf counts scope (xs ++ ys) =
      mentionsOf counts scope xs ++ mentionsOf counts scope ys := by
  induction xs with
  | nil => rfl
  | cons x xs ih => simp [mentionsOf, ih]

theorem label_found (label : Option String) (o : Nat) {ys : List Tree}
    (h : ys.find? (isKind .labelDefinition) = none) :
    ((labelTrees o label ++ ys).find? (isKind .labelDefinition)).map (·.cooked) = label := by
  cases label with
  | none => simp [labelTrees, h]
  | some text => simp [labelTrees, isKind, kind?, literal_cooked]

theorem label_silent {counts : NodeKind → Bool} (h : counts .labelDefinition = false)
    (scope : Option Id) (o : Nat) (label : Option String) :
    mentionsOf counts scope (labelTrees o label) = [] := by
  cases label with
  | none => rfl
  | some text => simp [labelTrees, mentionsOf, kind?, h]

theorem head_unplaced (scope : List String) (n : Name) (o : Nat) (label? : Option Tree) :
    (headMentions (scopeId scope) (nameTree o n) label?).map unplaced =
      (Fact.named scope n.segments :: (label?.map (·.cooked)).toList.map
        (.labelled (scope ++ n.segments))).map Fact.mention := by
  unfold headMentions
  rw [name_resolves, name_segments]
  cases label? <;> rfl

theorem shape_mentions (scope : List String) (name : Name) (label : Option String)
    (body : Option (List Item)) (o : Nat)
    (hbody : (mentionsOf (· == .subShapeDefinition) (scopeId (scope ++ name.segments))
        (bodyTrees (o + width (nameWords name ++ labelWords label)) body)).map unplaced =
      (bodyFacts (scope ++ name.segments) body).map Fact.mention) :
    (mentions (scopeId scope) (itemTree o (.shape name label body))).map unplaced =
      (itemFacts scope (.shape name label body)).map Fact.mention := by
  have hpath : (itemTree o (.shape name label body)).shapePath? = some (nameTree o name) := rfl
  have hlabel : (itemTree o (.shape name label body)).label?.map (·.cooked) = label := by
    refine label_found label (o + width (nameWords name)) ?_
    cases body <;> rfl
  rw [itemTree] at hpath hlabel ⊢
  rw [mentions, hpath]
  simp only [List.map_append, head_unplaced, hlabel, name_resolves]
  rw [← named_id, mentionsOf, mentionsOf_append, label_silent rfl]
  simp only [List.map_append, hbody]
  simp [itemFacts, nameTree, kind?]

theorem links_connectors (ls : List Link) (o : Nat) :
    ((linksTrees o ls).filterMap token?).filterMap (·.kind.connector?) =
      ls.map (·.connector) := by
  induction ls generalizing o with
  | nil => rfl
  | cons l ls ih =>
    have hl : ((linkTrees o l).filterMap token?).filterMap (·.kind.connector?) =
        [l.connector] := by
      cases h : l.connector <;>
        simp [linkTrees, nameTree, token?, Rendering.tokens, Word.token, Word.kind,
          TokenKind.connector?, h]
    rw [linksTrees, List.filterMap_append, List.filterMap_append, hl, ih]
    rfl

theorem links_endpoints (scope : List String) (ls : List Link) (o : Nat) :
    ((linksTrees o ls).filterMap Endpoint.ofTree?).map (endpointId? (scopeId scope)) =
      ls.map fun l => some (idOf (scope ++ l.target.segments)) := by
  induction ls generalizing o with
  | nil => rfl
  | cons l ls ih =>
    have hl : (linkTrees o l).filterMap Endpoint.ofTree? =
        [.shape (nameTree (o + width [.space, .connector l.connector, .space]) l.target)] := rfl
    rw [linksTrees, List.filterMap_append, List.map_append, hl, ih]
    simp [endpointId?, name_resolves]

theorem name_mentions (scope : List String) (n : Name) (o : Nat) :
    (mentions (scopeId scope) (nameTree o n)).map unplaced =
      [(Fact.named scope n.segments).mention] := by
  show [Mention.path (scopeId scope) (nameTree o n).segments {}] = _
  rw [name_segments]
  rfl

theorem links_paths (scope : List String) (ls : List Link) (o : Nat) :
    (mentionsOf isEndpointBlock (scopeId scope) (linksTrees o ls)).map unplaced =
      (ls.map fun l => Fact.named scope l.target.segments).map Fact.mention := by
  induction ls generalizing o with
  | nil => rfl
  | cons l ls ih =>
    have hl : mentionsOf isEndpointBlock (scopeId scope) (linkTrees o l) = mentions (scopeId scope)
        (nameTree (o + width [.space, .connector l.connector, .space]) l.target) ++ [] := rfl
    rw [linksTrees, mentionsOf_append, List.map_append, hl, List.append_nil, name_mentions, ih]
    rfl

theorem links_edges (scope : List String) (label : Option String) (span : Span) (source : Name)
    (ls : List Link) :
    ((((ls.map (·.connector)).zip (adjacent (some (idOf (scope ++ source.segments)) ::
        ls.map fun l => some (idOf (scope ++ l.target.segments))))).filterMap fun e =>
      match e.2 with
      | (some source, some target) => some (OutlineEdge.mk source e.1 target label span)
      | _ => none).map Mention.edge).map unplaced =
    (linkFacts scope label source ls).map Fact.mention := by
  induction ls generalizing source with
  | nil => rfl
  | cons l ls ih =>
    simp only [List.map_cons, adjacent, List.zip_cons_cons, List.filterMap_cons, linkFacts]
    rw [← ih]
    rfl

theorem links_unlabelled (ls : List Link) (o : Nat) :
    (linksTrees o ls).find? (isKind .labelDefinition) = none := by
  induction ls generalizing o with
  | nil => rfl
  | cons l ls ih =>
    have hl : (linkTrees o l).find? (isKind .labelDefinition) = none := rfl
    rw [linksTrees, List.find?_append, hl, ih]
    rfl

theorem label_parts (label : Option String) (o : Nat) :
    ((labelTrees o label).filterMap token?).filterMap (·.kind.connector?) = [] ∧
      (labelTrees o label).filterMap Endpoint.ofTree? = [] := by
  cases label <;> exact ⟨rfl, rfl⟩

theorem chain_edges (scope : List String) (source : Name) (l : Link) (ls : List Link)
    (label : Option String) (o : Nat) :
    (((itemTree o (.chain source l ls label)).namedEdges (scopeId scope)).map Mention.edge).map
        unplaced =
      (linkFacts scope label source (l :: ls)).map Fact.mention := by
  have hlabel : (itemTree o (.chain source l ls label)).label?.map (·.cooked) = label := by
    have hfound := @label_found label
      (o + width (nameWords source ++ (l :: ls).flatMap linkWords)) [] rfl
    have hname : ¬isKind .labelDefinition (nameTree o source) = true := by
      simp [isKind, nameTree, kind?]
    rw [itemTree, Tree.label?, child?, elements, List.find?_cons_of_neg hname,
      List.find?_append, links_unlabelled, Option.none_or]
    rwa [List.append_nil] at hfound
  have hconnectors : (itemTree o (.chain source l ls label)).connectors =
      (l :: ls).map (·.connector) := by
    rw [itemTree, connectors, ownTokens, elements, List.filterMap_cons_none rfl,
      List.filterMap_append, List.filterMap_append, links_connectors, (label_parts label _).1,
      List.append_nil]
  have hendpoints : (itemTree o (.chain source l ls label)).endpoints.map
      (endpointId? (scopeId scope)) = some (idOf (scope ++ source.segments)) ::
        (l :: ls).map fun l => some (idOf (scope ++ l.target.segments)) := by
    have hsource : Endpoint.ofTree? (nameTree o source) = some (.shape (nameTree o source)) := rfl
    rw [itemTree, endpoints, elements, List.filterMap_cons_some hsource, List.filterMap_append,
      (label_parts label _).2, List.append_nil, List.map_cons, links_endpoints, endpointId?,
      name_resolves]
  rw [namedEdges, hlabel, hconnectors, hendpoints]
  exact links_edges scope label _ source (l :: ls)

theorem chain_mentions (scope : List String) (source : Name) (l : Link) (ls : List Link)
    (label : Option String) (o : Nat) :
    (mentions (scopeId scope) (itemTree o (.chain source l ls label))).map unplaced =
      (itemFacts scope (.chain source l ls label)).map Fact.mention := by
  have hedges := chain_edges scope source l ls label o
  rw [itemTree] at hedges ⊢
  have hsource : (nameTree o source).kind?.any isEndpointBlock = true := rfl
  rw [mentions, mentionsOf, if_pos hsource, mentionsOf_append, label_silent rfl, List.append_nil]
  simp only [List.map_append, hedges, links_paths, name_mentions]
  simp [itemFacts]

mutual

theorem item_mentions (item : Item) (scope : List String) (o : Nat) :
    (mentions (scopeId scope) (itemTree o item)).map unplaced =
      (itemFacts scope item).map Fact.mention := by
  cases item with
  | shape name label body =>
    exact shape_mentions scope name label body o (body_mentions body (scope ++ name.segments) _)
  | chain source link links label => exact chain_mentions scope source link links label o

theorem body_mentions (body : Option (List Item)) (scope : List String) (o : Nat) :
    (mentionsOf (· == .subShapeDefinition) (scopeId scope) (bodyTrees o body)).map unplaced =
      (bodyFacts scope body).map Fact.mention := by
  cases body with
  | none => rfl
  | some items =>
    have hbody : mentionsOf (· == .subShapeDefinition) (scopeId scope)
        (bodyTrees o (some items)) = mentionsOf NodeKind.isStatement (scopeId scope)
          (rowTrees (o + 3) items ++
            [.token (Word.closing.token (o + 3 + width (rowWords items)))]) ++ [] := by
      rw [bodyTrees]
      rfl
    have hclosing (t : Token) : mentionsOf NodeKind.isStatement (scopeId scope) [.token t] = [] :=
      rfl
    rw [hbody, List.append_nil, mentionsOf_append, hclosing, List.append_nil, row_mentions items]
    rfl

theorem row_mentions (items : List Item) (scope : List String) (o : Nat) :
    (mentionsOf NodeKind.isStatement (scopeId scope) (rowTrees o items)).map unplaced =
      (rowFacts scope items).map Fact.mention := by
  cases items with
  | nil => rfl
  | cons item items =>
    have hitem : (itemTree o item).kind?.any NodeKind.isStatement = true := by
      cases item <;> rfl
    rw [rowTrees, mentionsOf, if_pos hitem, rowFacts, List.map_append, List.map_append,
      item_mentions item]
    congr 1
    exact row_mentions items scope _

end

theorem parse_tree {items : List Item} (h : rowDepth items ≤ Grammar.maxNesting) :
    parse (render items) = ⟨.node .document 0 (rowTrees 0 items), []⟩ := by
  have hdocument := document_takes h (render items).utf8ByteSize
  rw [List.append_nil] at hdocument
  rw [parse, tokenize_render, parseTokens, hdocument]
  rfl

theorem firsts_ids (ms : List Mark) : (firsts ms).map (·.id) = (ms.map (·.id)).eraseDups := by
  induction ms using List.reverseRecOn with
  | nil => rfl
  | append_singleton ms m ih =>
    rw [firsts_snoc, List.map_append, List.eraseDups_append, ← ih]
    by_cases hm : ∃ k ∈ ms, k.id = m.id
    · simp [hm, List.removeAll]
    · rw [if_neg hm]
      simp only [not_exists, not_and] at hm
      have hnew : [m.id].removeAll (ms.map (·.id)) = [m.id] := by
        simpa [List.removeAll] using hm
      rw [List.map_append, List.map_singleton, hnew]
      rfl

/-- The shapes along a path are the initial pieces of the path, shortest first. -/
theorem along_inits (scope path : List String) :
    along (scopeId scope) path = path.inits.tail.map fun piece => idOf (scope ++ piece) := by
  induction path generalizing scope with
  | nil => rfl
  | cons s path ih =>
    have hs : some (idOf (scope ++ [s])) = scopeId (scope ++ [s]) := by simp [scopeId]
    have hinits : path.inits = [] :: path.inits.tail := by cases path <;> rfl
    rw [along, enter_scope, hs, ih, List.inits_cons, List.tail_cons, hinits]
    simp [Function.comp_def]

theorem marks_ids (scope : Option Id) (segments : List String) (span : Span) :
    (marks (.path scope segments span)).map (·.id) = along scope segments := by
  rw [marks, List.map_map]
  exact List.zipIdx_map_fst 1 (along scope segments)

section

variable {ms : List Mention} {fs : List Fact} (h : ms.map unplaced = fs.map Fact.mention)

include h

theorem facts_filterMap {β : Type} {f : Mention → Option β} {g : Fact → Option β}
    (hf : ∀ m, f (unplaced m) = f m) (hg : ∀ x : Fact, f x.mention = g x) :
    ms.filterMap f = fs.filterMap g := by
  have hsame := congrArg (List.filterMap f) h
  rw [List.filterMap_map, List.filterMap_map] at hsame
  simpa [Function.comp_def, hf, hg] using hsame

theorem facts_ids : (allMarks ms).map (·.id) = fs.flatMap Fact.ids := by
  have hplace (m : Mention) : (marks (unplaced m)).map (·.id) = (marks m).map (·.id) := by
    cases m with
    | path scope segments span => rw [unplaced, marks_ids, marks_ids]
    | _ => rfl
  have hfact (x : Fact) : (marks x.mention).map (·.id) = x.ids := by
    cases x with
    | named scope path => rw [Fact.mention, marks_ids, along_inits, Fact.ids]
    | _ => rfl
  have hsame := congrArg (List.flatMap fun m => (marks m).map (·.id)) h
  simp only [List.flatMap_map, hplace, hfact] at hsame
  rw [allMarks, List.map_flatMap]
  exact hsame

theorem facts_labels (id : Id) :
    Entries.lastLabel? ms id = (fs.filterMap (Fact.label? id)).getLast? := by
  rw [Entries.lastLabel?, facts_filterMap h]
  · intro m
    cases m <;> rfl
  · intro x
    cases x <;> rfl

theorem facts_forms (id : Id) : lastForm? ms id = none := by
  have hnone : ms.filterMap (form? id) = fs.filterMap fun _ => none := by
    apply facts_filterMap h
    · intro m
      cases m <;> rfl
    · intro x
      cases x <;> rfl
  rw [lastForm?, hnone]
  simp

theorem facts_edges :
    (ms.filterMap edge?).map (fun e => (e.source, e.connector, e.target, e.label)) =
      fs.filterMap Fact.edge? := by
  rw [List.map_filterMap]
  apply facts_filterMap h
  · intro m
    cases m <;> rfl
  · intro x
    cases x <;> rfl

end

/-- A written diagram parses without a report, and its outline is what the diagram says. -/
theorem parse_render (items : List Item) (h : rowDepth items ≤ 256) :
    (parse (render items)).diagnostics = [] ∧
      (Outline.ofTree (parse (render items)).tree).shapes.map
          (fun e => (e.id, e.label, e.form)) =
        (shapeIds items).map (fun id => (id, lastLabel? items id, none)) ∧
      (Outline.ofTree (parse (render items)).tree).edges.map
          (fun e => (e.source, e.connector, e.target, e.label)) =
        edges items := by
  have hmentions : ((Tree.node .document 0 (rowTrees 0 items)).mentions none).map unplaced =
      (rowFacts [] items).map Fact.mention := row_mentions items [] 0
  rw [parse_tree h]
  refine ⟨rfl, ?_, ?_⟩
  · rw [Outline.ofTree, shapes_firsts (mentions_grounded _), List.map_map, shapeIds,
      ← facts_ids hmentions, ← firsts_ids, List.map_map]
    apply List.map_congr_left
    intro m _
    simp only [Function.comp_apply, entry, facts_forms hmentions, facts_labels hmentions]
    rfl
  · rw [Outline.ofTree, edges_mentioned]
    exact facts_edges hmentions

/-- A shape whose names hold a quote, a reserved word and nothing at all. -/
def sample : List Item :=
  [.shape ⟨"a \"b\"", ["label"]⟩ (some "one\ntwo")
    (some [.chain ⟨"", []⟩ ⟨.backward, ⟨"x.y", []⟩⟩ [⟨.forward, ⟨"", ["\\"]⟩⟩] (some "|")]),
    .shape ⟨"a \"b\".label", []⟩ (some "three") none]

theorem sample_read_back :
    (parse (render sample)).diagnostics = [] ∧
      (Outline.ofTree (parse (render sample)).tree).shapes.map
          (fun e => (e.id, e.label, e.form)) =
        [(⟨"a \"b\""⟩, none, none), (⟨"a \"b\".label"⟩, some "three", none),
          (⟨"a \"b\".label."⟩, none, none), (⟨"a \"b\".label.x.y"⟩, none, none),
          (⟨"a \"b\".label..\\"⟩, none, none)] ∧
      (Outline.ofTree (parse (render sample)).tree).edges.map
          (fun e => (e.source, e.connector, e.target, e.label)) =
        [(⟨"a \"b\".label."⟩, .backward, ⟨"a \"b\".label.x.y"⟩, some "|"),
          (⟨"a \"b\".label.x.y"⟩, .forward, ⟨"a \"b\".label..\\"⟩, some "|")] := by
  obtain ⟨hsilent, hshapes, hedges⟩ := parse_render sample (by decide)
  exact ⟨hsilent, hshapes.trans (by decide +kernel), hedges.trans (by decide +kernel)⟩

end DiagramText.RoundTrip
