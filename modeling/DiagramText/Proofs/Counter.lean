import DiagramText.Proofs.Depth

/-!
# The nesting counter

The grammar can also be run with one counter of open groups, which is raised
behind the opening token of a group and lowered behind the closing one, and
which alone decides whether a group is entered. The counter cannot be lowered
below zero, and a routine that is called too often on top of itself halts.
Neither happens: the run builds what the grammar builds, every call leaves the
counter as it found it, and the limit is never passed. So the limit bounds the
groups around every node of a tree, and with them all nodes around it.
-/

set_option autoImplicit false

namespace DiagramText.Counter
open Rule (skip halt take bump trivia report)
open Lookahead Grammar Depth Production Schema DiagramText.Tree

/-- The routines that call themselves or each other. -/
inductive Callee where
  | statement
  | braced
  | array
  deriving DecidableEq, Repr

/-- The counter before and after a call. -/
structure CallRecord where
  callee : Callee
  before : Nat
  after : Nat
  deriving DecidableEq, Repr

structure Result where
  output : Output
  depth : Nat
  peak : Nat
  calls : List CallRecord

/-- A rule that starts with a value of the counter. -/
abbrev Routine := Nat → Cursor → Result

def plain (p : Rule) : Routine := fun d c => ⟨p c, d, d, []⟩

def raise : Routine := fun d c => ⟨skip c, d + 1, d + 1, []⟩

def lower : Routine
  | 0, c => ⟨halt c, 0, 0, []⟩
  | d + 1, c => ⟨skip c, d, d + 1, []⟩

def node (kind : NodeKind) (p : Routine) : Routine := fun d c =>
  { p d c with output := Rule.node kind (fun _ => (p d c).output) c }

def Result.append (a b : Result) : Result :=
  ⟨a.output.append b.output, b.depth, max a.peak b.peak, a.calls ++ b.calls⟩

def andThen (p q : Routine) : Routine := fun d c =>
  let a := p d c
  a.append (q a.depth a.output.cursor)

def seq : List Routine → Routine
  | [] => plain skip
  | p :: ps => andThen p (seq ps)

def whenNext (test : TokenKind → Bool) (p : Routine) : Routine := fun d c =>
  if c.peek?.any test then p d c else plain skip d c

def many (test : Cursor → Bool) (p : Routine) (d : Nat) (c : Cursor) : Result :=
  if test c then
    let a := p d c
    if a.output.cursor.tokens.length < c.tokens.length then
      a.append (many test p a.depth a.output.cursor)
    else { a with output := { a.output with stuck := true } }
  else plain skip d c
termination_by c.tokens.length

def called (callee : Callee) (p : Routine) : Routine := fun d c =>
  { p d c with calls := (p d c).calls ++ [⟨callee, d, (p d c).depth⟩] }

/-- Reads what is inside a group one level up. -/
def within (p : Routine) : Routine := seq [raise, p, lower]

/-- A group is entered below the limit and kept unread at it. -/
def limited (deep : Rule) (p : Routine) : Routine := fun d c =>
  if maxNesting ≤ d then plain deep d c else p d c

def element (nested : Routine) : Routine := fun d c =>
  if c.tokens.head?.any isSeparator then plain bump d c
  else if c.current? = some .leftBracket then node .attributeValue nested d c
  else plain (Rule.node .attributeValue (take elementLength)) d c

/-- An array, with so many calls on top of each other at most. -/
def array : Nat → Routine
  | 0 => plain halt
  | n + 1 =>
    called .array (limited (tooDeep .leftBracket .rightBracket) fun d c =>
      node .array
        (seq [plain bump, within (seq [plain trivia,
          many inArray (seq [element (array n), plain trivia]), plain (closeArray c.span)])])
        d c)

def value (array : Routine) : Routine :=
  whenNext (· == .colon)
    (seq [plain trivia, plain bump, fun d c =>
      if c.peek? = some .leftBracket then seq [plain trivia, node .attributeValue array] d c
      else
        plain (Rule.whenNext startsText
          (Rule.seq [trivia, Rule.node .attributeValue (take textLength)])) d c])

def body (braced : Routine) : Routine :=
  whenNext (· == .leftBrace) (seq [plain trivia, braced])

def path (kind : NodeKind) : Rule := Rule.node kind (take pathLength)

section

variable (braced : NodeKind → Scope → Routine) (array : Routine)

def shapeDefinition : Routine :=
  node .shapeDefinition
    (seq [plain (path .shapeId), plain label, body (braced .subShapeDefinition .shape)])

def property : Routine :=
  node .property
    (seq [plain (path .propertyKey), value array, body (braced .blockDefinition .block)])

def endpoint : Routine := fun d c =>
  if c.current? = some .leftBrace then braced .inlineShapeDefinition .shape d c
  else plain (path .shapeId) d c

def source : Routine := fun d c =>
  match c.current? with
  | some k =>
    if k.isConnector then plain (missingEndpoint ("expected a shape before " ++ k.describe)) d c
    else endpoint braced d c
  | none => endpoint braced d c

def target (connector : TokenKind) : Routine := fun d c =>
  match c.current? with
  | some .identifier | some .string | some .leftBrace => endpoint braced d c
  | some .error => plain (Rule.node .error bump) d c
  | _ => plain (missingEndpoint ("expected a shape after " ++ connector.describe)) d c

def link : Routine := fun d c =>
  match c.peek? with
  | some k => seq [plain trivia, plain bump, plain trivia, target braced k] d c
  | none => plain skip d c

def connection : Routine :=
  node .shapeConnection
    (seq [source braced, many (·.peek?.any (·.isConnector)) (link braced), plain label,
      body (braced .blockDefinition .block)])

def bareBlock : Scope → Routine
  | .document => seq [plain (report anonymousBlock), braced .subShapeDefinition .shape]
  | .shape => braced .subShapeDefinition .shape
  | .block => plain recover

def named (scope : Scope) : Routine := fun d c =>
  let path := Lookahead.path c.tokens
  if (c.drop path.length).peek?.any (·.isConnector) then connection braced d c
  else if path.hasKeyword ∨ scope = .block then property braced array d c
  else shapeDefinition braced d c

def statement (scope : Scope) : Routine :=
  called .statement fun d c =>
    match c.current? with
    | some .leftBrace =>
      match blockBeforeConnector? c with
      | some true => connection braced d c
      | some false => bareBlock braced scope d c
      | none => plain halt d c
    | some .identifier | some .string => named braced array scope d c
    | some .error => plain discard d c
    | some k => if k.isConnector then connection braced d c else plain recover d c
    | none => plain skip d c

def item (scope : Scope) : Routine := fun d c =>
  match c.current? with
  | some .newline | some .semicolon => plain bump d c
  | some .rightBrace => plain strayBrace d c
  | _ => seq [statement braced array scope, plain terminated] d c

def statements (scope : Scope) : Routine :=
  seq [plain trivia,
    many (inStatements scope) (seq [item braced array scope, plain trivia])]

end

/-- A braced body, with so many calls on top of each other at most. -/
def braced : Nat → NodeKind → Scope → Routine
  | 0, _, _ => plain halt
  | n + 1, kind, scope =>
    called .braced (limited (tooDeep .leftBrace .rightBrace) fun d c =>
      node kind
        (seq [plain bump,
          within (seq [statements (braced n) (array n) scope, plain (closeBlock c.span)])]) d c)

/-- The document, with room for one call more than there are levels. -/
def document : Routine :=
  statements (braced (maxNesting + 1)) (array (maxNesting + 1)) .document

/-- The result is that of the rule, the counter is as before and within the limit, and what was
built has no more groups on top of each other than the limit leaves. -/
structure Simulates (d : Nat) (r : Result) (o : Output) : Prop where
  output : r.output = o
  depth : r.depth = d
  peak : r.peak ≤ maxNesting
  calls : ∀ call ∈ r.calls, call.after = call.before
  nested : d + groupDepth o.trees ≤ maxNesting

def Tracks (d : Nat) (p : Routine) (q : Rule) : Prop := ∀ c, Simulates d (p d c) (q c)

/-- The rule builds no group. -/
def Flat (q : Rule) : Prop := ∀ c, groupDepth (q c).trees = 0

section

variable {d : Nat} {p p' : Routine} {q q' : Rule}

theorem plain_tracks (hd : d ≤ maxNesting) (h : Flat q) : Tracks d (plain q) q := fun c =>
  ⟨rfl, rfl, hd, by simp [plain], by rw [h c]; exact hd⟩

theorem simulates_append {a b : Result} {s t : Output} (ha : Simulates d a s)
    (hb : Simulates d b t) :
    Simulates d (a.append b) (s.append t) where
  output := by rw [Result.append, ha.output, hb.output]
  depth := hb.depth
  peak := max_le ha.peak hb.peak
  calls call h := by
    rcases List.mem_append.mp h with h | h
    · exact ha.calls call h
    · exact hb.calls call h
  nested := by
    have h := ha.nested
    have h' := hb.nested
    simp only [Output.append, groupDepth_append]
    omega

theorem andThen_tracks (hp : Tracks d p q) (hp' : Tracks d p' q') :
    Tracks d (andThen p p') (Rule.andThen q q') := by
  intro c
  have ha := hp c
  have hb := hp' (q c).cursor
  show Simulates d (Result.append (p d c) (p' (p d c).depth (p d c).output.cursor)) _
  rw [ha.depth, ha.output]
  exact simulates_append ha hb

theorem seq_tracks (hd : d ≤ maxNesting) {ps : List Routine} {qs : List Rule}
    (h : List.Forall₂ (Tracks d) ps qs) : Tracks d (seq ps) (Rule.seq qs) := by
  induction h with
  | nil => exact plain_tracks hd fun c => by simp [skip, groupDepth]
  | cons first _ ih => exact andThen_tracks first ih

theorem node_tracks {kind : NodeKind} (hk : isGroup kind = false) (h : Tracks d p q) :
    Tracks d (node kind p) (Rule.node kind q) := by
  intro c
  obtain ⟨ho, hdepth, hpeak, hcalls, hnested⟩ := h c
  refine ⟨by simp [node, Rule.node, ho], hdepth, hpeak, hcalls, ?_⟩
  rw [Rule.node, groupDepth_node, hk]
  simpa using hnested

theorem whenNext_tracks (hd : d ≤ maxNesting) {test : TokenKind → Bool} (h : Tracks d p q) :
    Tracks d (whenNext test p) (Rule.whenNext test q) := by
  intro c
  unfold whenNext Rule.whenNext
  split
  · exact h c
  · exact plain_tracks hd (fun c => by simp [skip, groupDepth]) c

theorem many_tracks (hd : d ≤ maxNesting) {test : Cursor → Bool} (h : Tracks d p q) :
    Tracks d (many test p) (Rule.many test q) := by
  intro c
  fun_induction Rule.many test q c with
  | case1 c ht a hlt ih =>
    have hc := h c
    have hlt' : (p d c).output.cursor.tokens.length < c.tokens.length := by rwa [hc.output]
    rw [many, if_pos ht]
    simp only [if_pos hlt']
    rw [hc.depth, hc.output]
    exact simulates_append hc ih
  | case2 c ht a hlt =>
    have hc := h c
    have hlt' : ¬(p d c).output.cursor.tokens.length < c.tokens.length := by rwa [hc.output]
    rw [many, if_pos ht]
    simp only [if_neg hlt']
    exact ⟨by rw [hc.output], hc.depth, hc.peak, hc.calls, hc.nested⟩
  | case3 c ht =>
    rw [many, if_neg ht]
    exact plain_tracks hd (fun c => by simp [skip, groupDepth]) c

theorem called_tracks (callee : Callee) (h : Tracks d p q) : Tracks d (called callee p) q := by
  intro c
  obtain ⟨ho, hdepth, hpeak, hcalls, hnested⟩ := h c
  refine ⟨ho, hdepth, hpeak, ?_, hnested⟩
  intro call hcall
  simp only [called, List.mem_append, List.mem_singleton] at hcall
  rcases hcall with hcall | rfl
  · exact hcalls call hcall
  · exact hdepth

theorem within_simulates (c : Cursor) (h : Simulates (d + 1) (p (d + 1) c) (q c)) :
    Simulates d (within p d c) (q c) ∧ d + 1 + groupDepth (q c).trees ≤ maxNesting := by
  refine ⟨⟨?_, ?_, ?_, ?_, ?_⟩, h.nested⟩
  · simp [within, seq, andThen, raise, lower, plain, Result.append, h.depth, h.output,
      Output.append, skip]
  · simp [within, seq, andThen, raise, lower, plain, Result.append, skip, h.depth]
  · have hpeak := h.peak
    have hnested := h.nested
    simp only [within, seq, andThen, raise, lower, plain, Result.append, skip, h.depth]
    omega
  · simpa [within, seq, andThen, raise, lower, plain, Result.append, skip, h.depth] using h.calls
  · have hnested := h.nested
    omega

theorem group_simulates {kind : NodeKind} (hd : d ≤ maxNesting) (c : Cursor)
    (h : Tracks (d + 1) p q) :
    Simulates d (node kind (seq [plain bump, within p]) d c)
      (Rule.node kind (Rule.andThen bump q) c) := by
  have hbump : groupDepth (bump c).trees = 0 := groupDepth_tokens _
  have hopen : Simulates d (plain bump d c) (bump c) :=
    ⟨rfl, rfl, hd, by simp [plain], by rw [hbump]; exact hd⟩
  obtain ⟨hinside, hnested⟩ := within_simulates (bump c).cursor (h (bump c).cursor)
  have hskip (c' : Cursor) : Simulates d (plain skip d c') (skip c') :=
    plain_tracks hd (fun c => by simp [skip, groupDepth]) c'
  have hboth := simulates_append hopen (simulates_append hinside (hskip (q (bump c).cursor).cursor))
  have hrun : seq [plain bump, within p] d c =
      (plain bump d c).append ((within p d (bump c).cursor).append
        (plain skip d (q (bump c).cursor).cursor)) := by
    simp only [seq, andThen, plain]
    rw [hinside.depth, hinside.output]
  obtain ⟨ho, hdepth, hpeak, hcalls, -⟩ := hboth
  rw [← hrun] at ho hdepth hpeak hcalls
  refine ⟨?_, hdepth, hpeak, hcalls, ?_⟩
  · simp [node, Rule.node, Rule.andThen, ho, Output.append, skip]
  · rw [Rule.node, groupDepth_node, Rule.andThen, Output.append, groupDepth_append, hbump]
    have hone : (isGroup kind).toNat ≤ 1 := Bool.toNat_le _
    omega

end

theorem skip_flat : Flat skip := fun c => by simp [skip, groupDepth]

theorem halt_flat : Flat halt := fun c => by simp [halt, groupDepth]

theorem take_flat (length : List Token → Nat) : Flat (take length) := fun _ =>
  groupDepth_tokens _

theorem report_flat (d : Cursor → Diagnostic) : Flat (report d) := fun c => by
  simp [report, groupDepth]

theorem counted_flat (length? : List Token → Option Nat) : Flat (Rule.takeCounted length?) := by
  intro c
  unfold Rule.takeCounted
  split
  · exact take_flat _ c
  · exact halt_flat c

theorem node_flat {kind : NodeKind} (hk : isGroup kind = false) {q : Rule} (h : Flat q) :
    Flat (Rule.node kind q) := by
  intro c
  rw [Rule.node, groupDepth_node, hk, h c]
  rfl

theorem andThen_flat {q q' : Rule} (h : Flat q) (h' : Flat q') : Flat (Rule.andThen q q') := by
  intro c
  rw [Rule.andThen, Output.append, groupDepth_append, h c, h' _]
  rfl

theorem whenNext_flat {test : TokenKind → Bool} {q : Rule} (h : Flat q) :
    Flat (Rule.whenNext test q) := by
  intro c
  unfold Rule.whenNext
  split
  · exact h c
  · exact skip_flat c

theorem discard_flat : Flat discard := node_flat rfl (counted_flat _)

theorem reported_flat (d : Cursor → Diagnostic) {q : Rule} (h : Flat q) :
    Flat (Rule.seq [report d, q]) :=
  andThen_flat (report_flat d) (andThen_flat h skip_flat)

theorem recover_flat : Flat recover := reported_flat _ discard_flat

theorem strayBrace_flat : Flat strayBrace := reported_flat _ (node_flat rfl (take_flat _))

theorem tooDeep_flat (opening closing : TokenKind) : Flat (tooDeep opening closing) :=
  reported_flat _ (node_flat rfl (counted_flat _))

theorem missing_flat (message : String) : Flat (missingEndpoint message) :=
  reported_flat _ (node_flat rfl skip_flat)

theorem trivia_flat {q : Rule} (h : Flat q) : Flat (Rule.seq [trivia, q]) :=
  andThen_flat (take_flat _) (andThen_flat h skip_flat)

theorem terminated_flat : Flat terminated := by
  intro c
  unfold terminated
  split
  · exact skip_flat c
  · split
    · exact skip_flat c
    · split
      · exact trivia_flat discard_flat c
      · exact trivia_flat recover_flat c

theorem text_flat {kind : NodeKind} (hk : isGroup kind = false) :
    Flat (Rule.whenNext startsText (Rule.seq [trivia, Rule.node kind (take textLength)])) :=
  whenNext_flat (trivia_flat (node_flat hk (take_flat _)))

theorem label_flat : Flat label :=
  whenNext_flat (andThen_flat (take_flat _)
    (andThen_flat (take_flat _) (andThen_flat (text_flat rfl) skip_flat)))

theorem path_flat {kind : NodeKind} (hk : isGroup kind = false) : Flat (path kind) :=
  node_flat hk (take_flat _)

theorem close_flat (k : TokenKind) (d : Cursor → Diagnostic) :
    Flat fun c => if c.current? = some k then bump c else report d c := by
  intro c
  show groupDepth (if c.current? = some k then bump c else report d c).trees = 0
  split
  · exact take_flat _ c
  · exact report_flat d c

section

variable {d : Nat} (hd : d ≤ maxNesting)

include hd

theorem trivia_tracks : Tracks d (plain trivia) trivia := plain_tracks hd (take_flat _)

theorem bump_tracks : Tracks d (plain bump) bump := plain_tracks hd (take_flat _)

theorem element_tracks {nested : Routine} {q : Rule} (h : Tracks d nested q) :
    Tracks d (element nested) (Grammar.element q) := by
  intro c
  unfold element Grammar.element
  split
  · exact bump_tracks hd c
  · split
    · exact node_tracks rfl h c
    · exact plain_tracks hd (node_flat rfl (take_flat _)) c

theorem value_tracks {array : Routine} {q : Rule} (h : Tracks d array q) :
    Tracks d (value array) (Grammar.value q) := by
  refine whenNext_tracks hd (seq_tracks hd
    (.cons (trivia_tracks hd) (.cons (bump_tracks hd) (.cons (fun c => ?_) .nil))))
  split
  · exact seq_tracks hd (.cons (trivia_tracks hd) (.cons (node_tracks rfl h) .nil)) c
  · exact plain_tracks hd (text_flat rfl) c

theorem body_tracks {braced : Routine} {q : Rule} (h : Tracks d braced q) :
    Tracks d (body braced) (Grammar.body q) :=
  whenNext_tracks hd (seq_tracks hd (.cons (trivia_tracks hd) (.cons h .nil)))

variable {braced : NodeKind → Scope → Routine} {array : Routine}
  {braced' : NodeKind → Scope → Rule} {array' : Rule}
  (hb : ∀ kind scope, Tracks d (braced kind scope) (braced' kind scope))

include hb

theorem shapeDefinition_tracks :
    Tracks d (shapeDefinition braced) (Grammar.shapeDefinition braced') :=
  node_tracks rfl (seq_tracks hd (.cons (plain_tracks hd (path_flat rfl))
    (.cons (plain_tracks hd label_flat) (.cons (body_tracks hd (hb _ _)) .nil))))

theorem property_tracks (ha : Tracks d array array') :
    Tracks d (property braced array) (Grammar.property braced' array') :=
  node_tracks rfl (seq_tracks hd (.cons (plain_tracks hd (path_flat rfl))
    (.cons (value_tracks hd ha) (.cons (body_tracks hd (hb _ _)) .nil))))

theorem endpoint_tracks : Tracks d (endpoint braced) (Grammar.endpoint braced') := by
  intro c
  unfold endpoint Grammar.endpoint
  split
  · exact hb _ _ c
  · exact plain_tracks hd (path_flat rfl) c

theorem source_tracks : Tracks d (source braced) (Grammar.source braced') := by
  intro c
  unfold source Grammar.source
  cases c.current? with
  | none => exact endpoint_tracks hd hb c
  | some k =>
    by_cases hk : k.isConnector = true
    · simpa only [if_pos hk] using plain_tracks hd (missing_flat _) c
    · simpa only [if_neg hk] using endpoint_tracks hd hb c

theorem target_tracks (connector : TokenKind) :
    Tracks d (target braced connector) (Grammar.target braced' connector) := by
  intro c
  have hmissing := plain_tracks hd
    (missing_flat ("expected a shape after " ++ connector.describe)) c
  unfold target Grammar.target
  cases c.current? with
  | none => exact hmissing
  | some k =>
    cases k with
    | identifier | string | leftBrace => exact endpoint_tracks hd hb c
    | error => exact plain_tracks hd (node_flat rfl (take_flat _)) c
    | _ => exact hmissing

theorem link_tracks : Tracks d (link braced) (Grammar.link braced') := by
  intro c
  unfold link Grammar.link
  cases c.peek? with
  | none => exact plain_tracks hd skip_flat c
  | some k =>
    exact seq_tracks hd (.cons (trivia_tracks hd) (.cons (bump_tracks hd)
      (.cons (trivia_tracks hd) (.cons (target_tracks hd hb k) .nil)))) c

theorem connection_tracks : Tracks d (connection braced) (Grammar.connection braced') :=
  node_tracks rfl (seq_tracks hd (.cons (source_tracks hd hb)
    (.cons (many_tracks hd (link_tracks hd hb)) (.cons (plain_tracks hd label_flat)
      (.cons (body_tracks hd (hb _ _)) .nil)))))

theorem bareBlock_tracks (scope : Scope) :
    Tracks d (bareBlock braced scope) (Grammar.bareBlock braced' scope) := by
  cases scope with
  | document => exact seq_tracks hd (.cons (plain_tracks hd (report_flat _)) (.cons (hb _ _) .nil))
  | shape => exact hb _ _
  | block => exact plain_tracks hd recover_flat

variable (ha : Tracks d array array')

include ha

theorem named_tracks (scope : Scope) :
    Tracks d (named braced array scope) (Grammar.named braced' array' scope) := by
  intro c
  simp only [named, Grammar.named]
  split
  · exact connection_tracks hd hb c
  · split
    · exact property_tracks hd hb ha c
    · exact shapeDefinition_tracks hd hb c

theorem statement_tracks (scope : Scope) :
    Tracks d (statement braced array scope) (Grammar.statement braced' array' scope) := by
  refine called_tracks .statement fun c => ?_
  unfold Grammar.statement
  cases c.current? with
  | none => exact plain_tracks hd skip_flat c
  | some k =>
    cases k with
    | leftBrace =>
      cases blockBeforeConnector? c with
      | none => exact plain_tracks hd halt_flat c
      | some before =>
        cases before with
        | true => exact connection_tracks hd hb c
        | false => exact bareBlock_tracks hd hb scope c
    | identifier | string => exact named_tracks hd hb ha scope c
    | error => exact plain_tracks hd discard_flat c
    | arrow | leftArrow | doubleArrow | line => exact connection_tracks hd hb c
    | _ => exact plain_tracks hd recover_flat c

theorem item_tracks (scope : Scope) :
    Tracks d (item braced array scope) (Grammar.item braced' array' scope) := by
  intro c
  have hstatement := seq_tracks hd (.cons (statement_tracks hd hb ha scope)
    (.cons (plain_tracks hd terminated_flat) .nil)) c
  unfold item Grammar.item
  cases c.current? with
  | none => exact hstatement
  | some k =>
    cases k with
    | newline | semicolon => exact bump_tracks hd c
    | rightBrace => exact plain_tracks hd strayBrace_flat c
    | _ => exact hstatement

theorem statements_tracks (scope : Scope) :
    Tracks d (statements braced array scope) (Grammar.statements braced' array' scope) :=
  seq_tracks hd (.cons (trivia_tracks hd) (.cons (many_tracks hd (seq_tracks hd
    (.cons (item_tracks hd hb ha scope) (.cons (trivia_tracks hd) .nil)))) .nil))

end

theorem limited_deep {d : Nat} (hd : d = maxNesting) {deep : Rule} (h : Flat deep) (p : Routine) :
    Tracks d (limited deep p) deep := by
  intro c
  rw [limited, if_pos (le_of_eq hd.symm)]
  exact plain_tracks (le_of_eq hd) h c

theorem limited_below {d : Nat} (hd : d < maxNesting) {deep q : Rule} {p : Routine}
    (h : Tracks d p q) : Tracks d (limited deep p) q := by
  intro c
  rw [limited, if_neg (Nat.not_le.mpr hd)]
  exact h c

theorem groups_track (n : Nat) : ∀ d fuel, d + n = maxNesting → n < fuel →
    (∀ kind scope, Tracks d (braced fuel kind scope) (Grammar.braced n kind scope)) ∧
      Tracks d (array fuel) (Grammar.array n) := by
  induction n with
  | zero =>
    intro d fuel hd hfuel
    cases fuel with
    | zero => omega
    | succ fuel =>
      exact ⟨fun kind scope => called_tracks .braced (limited_deep hd (tooDeep_flat _ _) _),
        called_tracks .array (limited_deep hd (tooDeep_flat _ _) _)⟩
  | succ n ih =>
    intro d fuel hd hfuel
    cases fuel with
    | zero => omega
    | succ fuel =>
      have hroom : d + 1 ≤ maxNesting := by omega
      obtain ⟨hb, ha⟩ := ih (d + 1) fuel (by omega) (by omega)
      constructor
      · intro kind scope
        refine called_tracks .braced (limited_below hroom fun c => ?_)
        exact group_simulates (by omega) c (seq_tracks hroom
          (.cons (statements_tracks hroom hb ha scope)
            (.cons (plain_tracks hroom (close_flat _ _)) .nil)))
      · refine called_tracks .array (limited_below hroom fun c => ?_)
        exact group_simulates (by omega) c (seq_tracks hroom (.cons (trivia_tracks hroom)
          (.cons (many_tracks hroom (seq_tracks hroom
              (.cons (element_tracks hroom ha) (.cons (trivia_tracks hroom) .nil))))
            (.cons (plain_tracks hroom (close_flat _ _)) .nil))))

theorem document_tracks : Tracks 0 document Grammar.document := by
  obtain ⟨hb, ha⟩ :=
    groups_track maxNesting 0 (maxNesting + 1) (Nat.zero_add _) (Nat.lt_succ_self _)
  exact statements_tracks (Nat.zero_le _) hb ha .document

/-- The run of a text with a counter, and how deep its tree is. -/
structure DepthBounded (text : String) (run : Result) : Prop where
  output : run.output = Grammar.document ⟨(tokenize text).1, text.utf8ByteSize⟩
  depth : run.depth = 0
  peak : run.peak ≤ maxNesting
  calls : ∀ call ∈ run.calls, call.after = call.before
  places : (parse text).tree.places.map (·.node) = (parse text).tree.nodes
  groups : ∀ p ∈ (parse text).tree.places, groups (p.node :: p.above) ≤ maxNesting
  ancestors : ∀ p ∈ (parse text).tree.places, p.above.length ≤ 2 * maxNesting + 3
  height : height [(parse text).tree] ≤ 2 * maxNesting + 4

theorem place_ancestors (text : String) (hgroups : ∀ p ∈ (parse text).tree.places,
      groups (p.node :: p.above) ≤ maxNesting) :
    ∀ p ∈ (parse text).tree.places, p.above.length ≤ 2 * maxNesting + 3 := by
  obtain ⟨-, hd, hitems⟩ := Nesting.document_derives (tokenize text).1 text.utf8ByteSize
  have hroot : [(parse text).tree].length ≤
      2 * groups [(parse text).tree] + slack .document + 1 := by simp
  have hlength := place_length (fun child hc => conforms_steps (k := .document) hitems hc)
    (outermost_lawful hd) hroot
  intro p hp
  have hfew := hgroups p hp
  rcases List.mem_cons.mp hp with rfl | hp
  · simp
  · obtain ⟨child, -, hp⟩ := hlength p hp
    have hslack : slack child ≤ 3 := by cases child <;> decide
    omega

/-- The counter comes back to zero without passing the limit, every call restores it, and no node
is deeper than the limit allows. -/
theorem parse_bounded (text : String) :
    DepthBounded text (document 0 ⟨(tokenize text).1, text.utf8ByteSize⟩) := by
  have hrun := document_tracks ⟨(tokenize text).1, text.utf8ByteSize⟩
  have hplaces : (parse text).tree.places = placesUnderAll [] [(parse text).tree] := by
    simp [Tree.places, placesUnderAll]
  have hgroups : ∀ p ∈ (parse text).tree.places, groups (p.node :: p.above) ≤ maxNesting := by
    intro p hp
    rw [hplaces] at hp
    have hdepth : groupDepth [(parse text).tree] ≤ maxNesting := by
      have hnested := hrun.nested
      show groupDepth [.node .document 0 _] ≤ maxNesting
      rw [groupDepth_node]
      simpa [isGroup] using hnested
    have hp' := place_groups [] [(parse text).tree] p hp
    have hnone : groups [] = 0 := rfl
    omega
  have hancestors := place_ancestors text hgroups
  refine ⟨hrun.output, hrun.depth, hrun.peak, hrun.calls, ?_, hgroups, hancestors, ?_⟩
  · rw [hplaces, places_nodes]
    simp [nodesAll]
  · rw [hplaces] at hancestors
    have hheight := height_places [(parse text).tree] [] (2 * maxNesting + 4)
      fun p hp => Nat.lt_succ_of_le (hancestors p hp)
    simpa using hheight

end DiagramText.Counter
