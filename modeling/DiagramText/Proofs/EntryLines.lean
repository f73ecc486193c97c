import DiagramText.Proofs.BareWords

/-!
# Lines of entries

An entry gives a key a quoted value. Entries are written one a line, in the
block of a key or of a connection or outside of any. The scanner cuts such
lines into their words, the grammar takes one statement for each line, and a
block takes the lines in it, so the tree of a document of such lines is known
node by node and nothing is reported about it.
-/

set_option autoImplicit false

namespace DiagramText.EntryLines
open Text Rule Lookahead Grammar Rereading BareWords
open Rendering (Word)

/-- A key and the text of its value. -/
structure Entry where
  key : BarePath
  value : String

/-- The line `key: "value"`. -/
def Entry.line (e : Entry) : String :=
  ".".intercalate e.key.segments ++ ": " ++ .ofList (Literal.write '"' e.value.toList)

/-- The entries in a block of the word. -/
def mapLines (k : String) (es : List Entry) : List String :=
  (k ++ ": \x7b") :: (es.map Entry.line ++ ["\x7d"])

/-- The entries with the word in front of every key. -/
def dottedLines (k : String) (es : List Entry) : List String := es.map fun e => k ++ "." ++ e.line

/-- The lines in the block of a connection. -/
def connectionLines (a b : Identifier) (lines : List String) : List String :=
  (a.text ++ " -> " ++ b.text ++ ": \x7b") :: (lines ++ ["\x7d"])

/-- The lines as one text, with a newline at the end or without. -/
def document (final : Bool) (lines : List String) : String :=
  "\n".intercalate lines ++ if final then "\n" else ""

/-- A statement as it is written, and the tree that it has at an offset. -/
structure Clause where
  pieces : List Piece
  tree : Nat → Tree

def led (ss : List Clause) : List Piece := ss.flatMap fun s => .word .newline :: s.pieces

def ledTrees (o : Nat) : List Clause → List Tree
  | [] => []
  | s :: ss => .token (Word.newline.token o) :: s.tree (o + 1) ::
      ledTrees (o + 1 + width s.pieces) ss

def rowPieces : List Clause → List Piece
  | [] => []
  | s :: ss => s.pieces ++ led ss

def clauseTrees (o : Nat) : List Clause → List Tree
  | [] => []
  | s :: ss => s.tree o :: ledTrees (o + width s.pieces) ss

def valueTree (o : Nat) (value : String) : Tree :=
  .node .attributeValue o [.token ((Word.literal value).token o)]

def entryClause (k : BarePath) (value : String) : Clause where
  pieces := k.pieces ++ [.word .colon, .word .space, .word (.literal value)]
  tree o := .node .property o
    [k.tree .propertyKey o, .token (Word.colon.token (o + width k.pieces)),
      .token (Word.space.token (o + width k.pieces + 1)), valueTree (o + width k.pieces + 2) value]

def blockPieces (ss : List Clause) : List Piece :=
  [.word .space, .word .opening] ++ (led ss ++ [.word .newline, .word .closing])

def blockTree (o : Nat) (ss : List Clause) : Tree :=
  .node .blockDefinition o (.token (Word.opening.token o) ::
    (ledTrees (o + 1) ss ++ [.token (Word.newline.token (o + 1 + width (led ss)))] ++
      [.token (Word.closing.token (o + 1 + width (led ss) + 1))]))

def blockTrees (o : Nat) (ss : List Clause) : List Tree :=
  [.token (Word.space.token o), blockTree (o + 1) ss]

def mapClause (k : BarePath) (ss : List Clause) : Clause where
  pieces := k.pieces ++ .word .colon :: blockPieces ss
  tree o := .node .property o
    (k.tree .propertyKey o :: .token (Word.colon.token (o + width k.pieces)) ::
      blockTrees (o + width k.pieces + 1) ss)

def arrowPieces (b : Identifier) : List Piece :=
  [.word .space, .word (.connector .forward), .word .space, .bare b]

def arrowTrees (o : Nat) (b : Identifier) : List Tree :=
  [.token (Word.space.token o), .token ((Word.connector .forward).token (o + 1)),
    .token (Word.space.token (o + 3)), BarePath.tree .shapeId (o + 4) ⟨b, []⟩]

def linkClause (a b : Identifier) (ss : List Clause) : Clause where
  pieces := .bare a :: (arrowPieces b ++ .word .colon :: blockPieces ss)
  tree o :=
    .node .shapeConnection o
      (BarePath.tree .shapeId o ⟨a, []⟩ :: (arrowTrees (o + width [.bare a]) b ++
        .token (Word.colon.token (o + width [.bare a] + width (arrowPieces b))) ::
          blockTrees (o + width [.bare a] + width (arrowPieces b) + 1) ss))

def Stops (ts : List Token) : Prop := ∀ t ∈ ts.head?, t.kind = .newline

theorem stops_next {ts : List Token} (h : Stops ts) :
    ts = [] ∨ nextKind ts = some .newline ∧ triviaLength ts = 0 := by
  cases ts with
  | nil => exact .inl rfl
  | cons t ts =>
    have ht : t.kind = .newline := h t rfl
    have htrivia : t.isTrivia = false := by simp [Token.isTrivia, ht, TokenKind.isTrivia]
    exact .inr ⟨by simp [nextKind, htrivia, ht], trivia_none htrivia ts⟩

theorem stops_trivia {ts : List Token} (h : Stops ts) : triviaLength ts = 0 := by
  rcases stops_next h with rfl | ⟨-, htrivia⟩
  · rfl
  · exact htrivia

section

variable {braced : NodeKind → Scope → Rule} {array : Rule} {rest : List Token}

theorem value_takes (value : String) (o : Nat) (h : Stops rest) :
    Takes (Grammar.value array)
      [Word.colon.token o, Word.space.token (o + 1), (Word.literal value).token (o + 2)]
      [.token (Word.colon.token o), .token (Word.space.token (o + 1)), valueTree (o + 2) value]
      rest := by
  have hlength : textLength ((Word.literal value).token (o + 2) :: rest) = 1 := by
    rcases stops_next h with rfl | ⟨hnext, -⟩
    · rfl
    · exact text_one rfl (.inl hnext)
  have htext : Takes (node .attributeValue (take textLength))
      [(Word.literal value).token (o + 2)] [valueTree (o + 2) value] rest :=
    node_takes .attributeValue rfl (take_takes hlength)
  have hafter : Takes
      (whenNext startsText (seq [trivia, node .attributeValue (take textLength)]))
      ([Word.space.token (o + 1)] ++ [(Word.literal value).token (o + 2)])
      ([.token (Word.space.token (o + 1))] ++ [valueTree (o + 2) value]) rest := by
    apply whenNext_takes
    · rfl
    · exact seq_takes (trivia_takes rfl rfl) (seq_last htext)
  have hchoice : Takes (fun c =>
      if c.peek? = some .leftBracket then seq [trivia, node .attributeValue array] c
      else whenNext startsText (seq [trivia, node .attributeValue (take textLength)]) c)
      ([Word.space.token (o + 1)] ++ [(Word.literal value).token (o + 2)])
      ([.token (Word.space.token (o + 1))] ++ [valueTree (o + 2) value]) rest :=
    hafter
  have htokens :
      [Word.colon.token o, Word.space.token (o + 1), (Word.literal value).token (o + 2)] =
        [] ++ ([Word.colon.token o] ++ ([Word.space.token (o + 1)] ++
          [(Word.literal value).token (o + 2)])) := rfl
  rw [htokens]
  apply whenNext_takes
  · rfl
  · exact seq_takes (trivia_skips rfl) (seq_takes bump_takes (seq_last hchoice))

theorem value_bare (o : Nat) (h : nextKind rest = some .leftBrace) :
    Takes (Grammar.value array) [Word.colon.token o] [.token (Word.colon.token o)] rest := by
  have hnone : Takes (fun c =>
      if c.peek? = some .leftBracket then seq [trivia, node .attributeValue array] c
      else whenNext startsText (seq [trivia, node .attributeValue (take textLength)]) c)
      [] [] rest := by
    intro size
    have hpeek : Cursor.peek? ⟨[] ++ rest, size⟩ = some .leftBrace := h
    simp only [hpeek]
    exact whenNext_skips (by rw [h]; rfl) size
  show Takes _ ([] ++ [Word.colon.token o]) _ rest
  apply whenNext_takes
  · rfl
  · exact seq_takes (trivia_skips rfl) (seq_done bump_takes (seq_last hnone))

theorem label_bare (o : Nat) (h : nextKind rest = some .leftBrace) :
    Takes Grammar.label [Word.colon.token o] [.token (Word.colon.token o)] rest := by
  show Takes _ ([] ++ [Word.colon.token o]) _ rest
  apply whenNext_takes
  · rfl
  · apply seq_takes (trivia_skips rfl)
    apply seq_done bump_takes
    apply seq_last
    apply whenNext_skips
    rw [h]
    rfl

theorem statement_property (k : BarePath) (o : Nat) {scope : Scope}
    (hs : k.segments.any Keyword.isReserved = true ∨ scope = .block) (colon : Nat)
    (size : Nat) :
    statement braced array scope ⟨tokens o k.pieces ++ Word.colon.token colon :: rest, size⟩ =
      property braced array ⟨tokens o k.pieces ++ Word.colon.token colon :: rest, size⟩ := by
  have hnamed : statement braced array scope
      ⟨tokens o k.pieces ++ Word.colon.token colon :: rest, size⟩ =
      named braced array scope ⟨tokens o k.pieces ++ Word.colon.token colon :: rest, size⟩ := rfl
  have hcolon : nextKind (Word.colon.token colon :: rest) = some .colon := rfl
  have hpath := @key_path k o (Word.colon.token colon :: rest) (by simp [hcolon])
    (Measures.words_none (by simp [Word.token, Word.kind]) rest)
  have hdrop : (tokens o k.pieces ++ Word.colon.token colon :: rest).drop k.pieces.length =
      Word.colon.token colon :: rest :=
    List.drop_left' (pieces_length o k.pieces)
  have hplain : ¬(Cursor.peek? ⟨Word.colon.token colon :: rest, size⟩).any (·.isConnector) = true :=
    Bool.false_ne_true
  rw [hnamed, named]
  simp only [hpath, Cursor.drop, hdrop, if_neg hplain, if_pos hs]

theorem property_takes (k : BarePath) (o : Nat) {scope : Scope} {colon : Nat}
    (hs : k.segments.any Keyword.isReserved = true ∨ scope = .block) {vs bs : List Token}
    {xs ys : List Tree}
    (hbody : Takes (Grammar.body (braced .blockDefinition .block)) bs ys rest)
    (hvalue : Takes (Grammar.value array) (Word.colon.token colon :: vs) xs (bs ++ rest)) :
    Takes (statement braced array scope) (tokens o k.pieces ++ (Word.colon.token colon :: vs ++ bs))
      [.node .property o (k.tree .propertyKey o :: (xs ++ ys))] rest := by
  have hcolon : nextKind (Word.colon.token colon :: vs ++ bs ++ rest) = some .colon := rfl
  have hkey := @key_takes .propertyKey k o (Word.colon.token colon :: vs ++ bs ++ rest)
    (by rw [hcolon]; simp) (Measures.words_none (by simp [Word.token, Word.kind]) _)
  have hparts := node_takes .property (o := o) rfl
    (seq_takes hkey (seq_takes hvalue (seq_last hbody)))
  have htokens : tokens o k.pieces ++ (Word.colon.token colon :: vs ++ bs) ++ rest =
      tokens o k.pieces ++ Word.colon.token colon :: (vs ++ bs ++ rest) := by simp
  intro size
  rw [htokens, statement_property k o hs colon size, ← htokens]
  exact hparts size

/-- The statement can stand in such a list, in front of a newline or the end. -/
structure Reads (braced : NodeKind → Scope → Rule) (array : Rule) (scope : Scope)
    (s : Clause) : Prop where
  head : ∃ n ps, s.pieces = .bare n :: ps
  takes : ∀ o rest, Stops rest →
    Takes (statement braced array scope) (tokens o s.pieces) [s.tree o] rest

theorem entry_reads {scope : Scope} (k : BarePath) (value : String)
    (hs : k.segments.any Keyword.isReserved = true ∨ scope = .block) :
    Reads braced array scope (entryClause k value) := by
  constructor
  · exact ⟨k.first, _, List.cons_append⟩
  · intro o rest hrest
    have hskip : Takes (Grammar.body (braced .blockDefinition .block)) [] [] rest := by
      apply whenNext_skips
      rcases stops_next hrest with rfl | ⟨hnext, -⟩
      · rfl
      · rw [hnext]
        rfl
    have hvalue := @value_takes array rest value (o + width k.pieces) hrest
    have hproperty := property_takes k o hs hskip hvalue
    simp only [List.append_nil] at hproperty
    have htokens : tokens o (entryClause k value).pieces = tokens o k.pieces ++
        [Word.colon.token (o + width k.pieces), Word.space.token (o + width k.pieces + 1),
          (Word.literal value).token (o + width k.pieces + 2)] := pieces_append o k.pieces _
    rw [htokens]
    exact hproperty

theorem statement_round {scope : Scope} {s : Clause} (h : Reads braced array scope s) (o : Nat)
    (hrest : Stops rest) :
    Takes (seq [item braced array scope, trivia]) (tokens o s.pieces) [s.tree o] rest := by
  have hterminated : Takes terminated [] [] rest := by
    rcases stops_next hrest with rfl | ⟨hnext, -⟩
    · exact fun _ => rfl
    · exact terminated_takes hnext
  have hstatement := seq_done (h.takes o rest hrest) (seq_last hterminated)
  have hitem : Takes (item braced array scope) (tokens o s.pieces) [s.tree o] rest := by
    obtain ⟨n, ps, hpieces⟩ := h.head
    rw [hpieces] at hstatement ⊢
    exact hstatement
  exact seq_done hitem (seq_last (trivia_skips (stops_trivia hrest)))

theorem statement_rounds {scope : Scope} {s : Clause} (h : Reads braced array scope s) (o : Nat)
    {us : List Token} {ys : List Tree} (hstops : Stops (us ++ rest))
    (hus : Takes (rounds braced array scope) us ys rest) :
    Takes (rounds braced array scope) (tokens o s.pieces ++ us) (s.tree o :: ys) rest := by
  obtain ⟨n, ps, hpieces⟩ := h.head
  refine many_rounds (by simp [hpieces, tokens]) (fun size => ?_)
    (statement_round h o hstops) hus
  rw [hpieces]
  cases scope <;> rfl

theorem led_rounds {scope : Scope} {ss : List Clause}
    (h : ∀ s ∈ ss, Reads braced array scope s) (o : Nat) {us : List Token} {ys : List Tree}
    (hstops : Stops (us ++ rest)) (hus : Takes (rounds braced array scope) us ys rest) :
    Stops (tokens o (led ss) ++ us ++ rest) ∧
      Takes (rounds braced array scope) (tokens o (led ss) ++ us) (ledTrees o ss ++ ys) rest := by
  induction ss generalizing o with
  | nil => exact ⟨hstops, hus⟩
  | cons s ss ih =>
    rw [List.forall_mem_cons] at h
    obtain ⟨hled, hrounds⟩ := ih h.2 (o + 1 + width s.pieces)
    have htokens : tokens o (led (s :: ss)) = Word.newline.token o ::
        (tokens (o + 1) s.pieces ++ tokens (o + 1 + width s.pieces) (led ss)) := by
      rw [led, List.flatMap_cons, List.cons_append, tokens, pieces_append]
      rfl
    have hline := statement_rounds h.1 (o + 1) hled hrounds
    have htrivia : triviaLength (tokens (o + 1) s.pieces ++
        (tokens (o + 1 + width s.pieces) (led ss) ++ us) ++ rest) = 0 := by
      obtain ⟨n, ps, hpieces⟩ := h.1.head
      rw [hpieces]
      exact trivia_none rfl _
    have hnewline := newline_rounds o htrivia hline
    rw [htokens, List.cons_append, List.append_assoc]
    exact ⟨by simp [Stops, Word.token, Word.kind], hnewline⟩

end

theorem block_takes {n : Nat} {ss : List Clause}
    (h : ∀ s ∈ ss, Reads (braced n) (array n) .block s) (o : Nat) (rest : List Token) :
    Takes (Grammar.body (braced (n + 1) .blockDefinition .block))
      (tokens o (blockPieces ss)) (blockTrees o ss) rest := by
  have htokens : tokens o (blockPieces ss) =
      [Word.space.token o] ++ ([Word.opening.token (o + 1)] ++
        ((tokens (o + 2) (led ss) ++ [Word.newline.token (o + 2 + width (led ss))]) ++
          [Word.closing.token (o + 2 + width (led ss) + 1)])) := by
    rw [blockPieces, pieces_append, pieces_append]
    simp only [List.append_assoc]
    rfl
  have hclosing : Takes (rounds (braced n) (array n) .block) [] []
      ([Word.closing.token (o + 2 + width (led ss) + 1)] ++ rest) := many_stops fun _ => rfl
  obtain ⟨hstops, hrows⟩ := led_rounds h (o + 2) (by simp [Stops, Word.token, Word.kind])
    (newline_rounds (o + 2 + width (led ss)) rfl hclosing)
  have hstatements := statements_takes (stops_trivia hstops) hrows
  have hbraced : Takes (braced (n + 1) .blockDefinition .block)
      ([Word.opening.token (o + 1)] ++
        ((tokens (o + 2) (led ss) ++ [Word.newline.token (o + 2 + width (led ss))]) ++
          [Word.closing.token (o + 2 + width (led ss) + 1)])) [blockTree (o + 1) ss] rest := by
    have hinside := seq_takes (@bump_takes (Word.opening.token (o + 1)) _) (seq_takes hstatements
      (seq_last (closeBlock_takes (Word.opening.token (o + 1)).span _)))
    exact fun size => node_takes .blockDefinition rfl hinside size
  have hblock : Takes (seq [trivia, braced (n + 1) .blockDefinition .block])
      ([Word.space.token o] ++ _) ([.token (Word.space.token o)] ++ [blockTree (o + 1) ss]) rest :=
    seq_takes (trivia_takes rfl rfl) (seq_last hbraced)
  rw [htokens]
  exact whenNext_takes rfl hblock

theorem block_next (o : Nat) (ss : List Clause) (rest : List Token) :
    nextKind (tokens o (blockPieces ss) ++ rest) = some .leftBrace := rfl

theorem map_reads {n : Nat} {scope : Scope} (k : BarePath) {ss : List Clause}
    (hs : k.segments.any Keyword.isReserved = true ∨ scope = .block)
    (h : ∀ s ∈ ss, Reads (braced n) (array n) .block s) :
    Reads (braced (n + 1)) (array (n + 1)) scope (mapClause k ss) := by
  constructor
  · exact ⟨k.first, _, List.cons_append⟩
  · intro o rest _
    have hblock := block_takes h (o + width k.pieces + 1) rest
    have hvalue := @value_bare (array (n + 1)) _ (o + width k.pieces)
      (block_next (o + width k.pieces + 1) ss rest)
    have hproperty := property_takes k o hs hblock hvalue
    have htokens : tokens o (mapClause k ss).pieces = tokens o k.pieces ++
        Word.colon.token (o + width k.pieces) :: tokens (o + width k.pieces + 1) (blockPieces ss) :=
      pieces_append o k.pieces _
    rw [htokens]
    exact hproperty

theorem arrow_takes {n : Nat} (b : Identifier) (o colon : Nat) (rest : List Token) :
    Takes (many (·.peek?.any (·.isConnector)) (link (braced n))) (tokens o (arrowPieces b))
      (arrowTrees o b) (Word.colon.token colon :: rest) := by
  have hend : Takes (many (·.peek?.any (·.isConnector)) (link (braced n))) [] []
      (Word.colon.token colon :: rest) := many_stops fun _ => rfl
  have htarget : Takes (target (braced n) .arrow) (tokens (o + 4) (BarePath.pieces ⟨b, []⟩))
      [BarePath.tree .shapeId (o + 4) ⟨b, []⟩] (Word.colon.token colon :: rest) := by
    have hcolon : nextKind (Word.colon.token colon :: rest) = some .colon := rfl
    exact key_takes .shapeId ⟨b, []⟩ (o + 4) (by rw [hcolon]; simp)
      (Measures.words_none (by simp [Word.token, Word.kind]) rest)
  have hparts : Takes (seq [trivia, bump, trivia, target (braced n) .arrow])
      (tokens o (arrowPieces b)) (arrowTrees o b) (Word.colon.token colon :: rest) :=
    seq_takes (@trivia_takes (Word.space.token o) _ rfl rfl) (seq_takes
      (@bump_takes ((Word.connector .forward).token (o + 1)) _) (seq_takes
        (@trivia_takes (Word.space.token (o + 3)) _ rfl rfl) (seq_last htarget)))
  have hlink : Takes (link (braced n)) (tokens o (arrowPieces b)) (arrowTrees o b)
      (Word.colon.token colon :: rest) := fun size => hparts size
  exact many_rounds (by simp [arrowPieces, tokens]) (fun _ => rfl) hlink hend

theorem statement_connection {n : Nat} {scope : Scope} (a b : Identifier) (o m : Nat)
    (ts : List Token) (size : Nat) :
    statement (braced n) (array n) scope
        ⟨tokens o [.bare a] ++ (tokens m (arrowPieces b) ++ ts), size⟩ =
      connection (braced n) ⟨tokens o [.bare a] ++ (tokens m (arrowPieces b) ++ ts), size⟩ := by
  have hnamed : statement (braced n) (array n) scope
      ⟨tokens o [.bare a] ++ (tokens m (arrowPieces b) ++ ts), size⟩ =
      named (braced n) (array n) scope
        ⟨tokens o [.bare a] ++ (tokens m (arrowPieces b) ++ ts), size⟩ := rfl
  have hnext : nextKind (tokens m (arrowPieces b) ++ ts) = some .arrow := rfl
  have hpath : path (tokens o [.bare a] ++ (tokens m (arrowPieces b) ++ ts)) = _ :=
    key_path ⟨a, []⟩ o (by rw [hnext]; simp) rfl
  have harrow : (Cursor.peek? ⟨tokens m (arrowPieces b) ++ ts, size⟩).any (·.isConnector) = true :=
    rfl
  rw [hnamed, named]
  simp only [hpath]
  exact if_pos harrow

theorem link_reads {n : Nat} {scope : Scope} (a b : Identifier) {ss : List Clause}
    (h : ∀ s ∈ ss, Reads (braced n) (array n) .block s) :
    Reads (braced (n + 1)) (array (n + 1)) scope (linkClause a b ss) := by
  constructor
  · exact ⟨a, _, rfl⟩
  · intro o rest _
    have hblock := block_takes h (o + width [.bare a] + width (arrowPieces b) + 1) rest
    have hlabel := label_bare (o + width [.bare a] + width (arrowPieces b))
      (block_next (o + width [.bare a] + width (arrowPieces b) + 1) ss rest)
    have harrow := @arrow_takes (n + 1) b (o + width [.bare a])
      (o + width [.bare a] + width (arrowPieces b))
      (tokens (o + width [.bare a] + width (arrowPieces b) + 1) (blockPieces ss) ++ rest)
    have hsource (ts : List Token) : Takes (source (braced (n + 1))) (tokens o [.bare a])
        [BarePath.tree .shapeId o ⟨a, []⟩]
        (tokens (o + width [.bare a]) (arrowPieces b) ++ ts ++ rest) := by
      have hnext : nextKind (tokens (o + width [.bare a]) (arrowPieces b) ++ ts ++ rest) =
          some .arrow := rfl
      exact key_takes .shapeId ⟨a, []⟩ o (by rw [hnext]; simp) rfl
    have hconnection := node_takes .shapeConnection rfl
      (seq_takes (hsource _) (seq_takes harrow (seq_takes hlabel (seq_last hblock))))
    have htokens : tokens o (linkClause a b ss).pieces = tokens o [.bare a] ++
        (tokens (o + width [.bare a]) (arrowPieces b) ++
          ([Word.colon.token (o + width [.bare a] + width (arrowPieces b))] ++
            tokens (o + width [.bare a] + width (arrowPieces b) + 1) (blockPieces ss))) := by
      show tokens o ([.bare a] ++ (arrowPieces b ++ .word .colon :: blockPieces ss)) = _
      rw [pieces_append, pieces_append]
      rfl
    rw [htokens]
    intro size
    rw [List.append_assoc, List.append_assoc, statement_connection a b o,
      ← List.append_assoc (tokens (o + width [.bare a]) _),
      ← List.append_assoc (tokens o [.bare a])]
    exact hconnection size

/-- The pieces of the statement stand apart, also from a newline behind it. -/
structure Written (s : Clause) : Prop where
  apart : s.pieces.IsChain Unfused
  last : ∃ ps w, s.pieces = ps ++ [.word w]

def MayFollow (ps : List Piece) : Prop :=
  ps.IsChain Unfused ∧ ∀ q ∈ ps.head?, q = .word .newline

theorem newline_follows {ps : List Piece} (h : ps.IsChain Unfused) :
    MayFollow (.word .newline :: ps) := by
  refine ⟨List.isChain_cons.mpr ⟨fun q _ => ?_, h⟩, by simp⟩
  cases q <;> trivial

theorem written_apart {s : Clause} (h : Written s) {ps : List Piece} (hps : MayFollow ps) :
    (s.pieces ++ ps).IsChain Unfused := by
  refine List.isChain_append.mpr ⟨h.apart, hps.1, fun p hp q hq => ?_⟩
  obtain ⟨front, w, hw⟩ := h.last
  obtain rfl : .word w = p := by simpa [hw] using hp
  obtain rfl := hps.2 q hq
  cases w <;> trivial

theorem led_follows {ss : List Clause} (h : ∀ s ∈ ss, Written s) {ps : List Piece}
    (hps : MayFollow ps) : MayFollow (led ss ++ ps) := by
  induction ss with
  | nil => exact hps
  | cons s ss ih =>
    rw [List.forall_mem_cons] at h
    have hpieces : led (s :: ss) ++ ps = .word .newline :: (s.pieces ++ (led ss ++ ps)) := by
      simp [led]
    rw [hpieces]
    exact newline_follows (written_apart h.1 (ih h.2))

theorem row_apart {ss : List Clause} (h : ∀ s ∈ ss, Written s) {ps : List Piece}
    (hps : MayFollow ps) : (rowPieces ss ++ ps).IsChain Unfused := by
  cases ss with
  | nil => exact hps.1
  | cons s ss =>
    rw [List.forall_mem_cons] at h
    rw [rowPieces, List.append_assoc]
    exact written_apart h.1 (led_follows h.2 hps)

theorem key_apart (k : BarePath) {ps : List Piece} (h : (Piece.word .colon :: ps).IsChain Unfused) :
    (k.pieces ++ .word .colon :: ps).IsChain Unfused := by
  obtain ⟨first, rest⟩ := k
  induction rest generalizing first with
  | nil => exact .cons_cons (.inr (.inl rfl)) h
  | cons n rest ih => exact .cons_cons (.inl rfl) (.cons_cons trivial (ih n))

theorem entry_written (k : BarePath) (value : String) : Written (entryClause k value) := by
  constructor
  · exact key_apart k (.cons_cons trivial (.cons_cons trivial (.singleton _)))
  · exact ⟨k.pieces ++ [.word .colon, .word .space], .literal value, by simp [entryClause]⟩

theorem block_apart {ss : List Clause} (h : ∀ s ∈ ss, Written s) :
    (Piece.word .colon :: blockPieces ss).IsChain Unfused := by
  have hclosing : MayFollow [.word .newline, .word .closing] := newline_follows (.singleton _)
  have hled := led_follows h hclosing
  refine .cons_cons trivial (.cons_cons trivial (List.isChain_cons.mpr ⟨fun q _ => ?_, hled.1⟩))
  cases q <;> trivial

theorem block_last (ss : List Clause) : ∃ ps, blockPieces ss = ps ++ [.word .closing] :=
  ⟨[.word .space, .word .opening] ++ (led ss ++ [.word .newline]), by simp [blockPieces]⟩

theorem map_written (k : BarePath) {ss : List Clause} (h : ∀ s ∈ ss, Written s) :
    Written (mapClause k ss) := by
  obtain ⟨ps, hps⟩ := block_last ss
  exact ⟨key_apart k (block_apart h), k.pieces ++ .word .colon :: ps, .closing,
    by simp [mapClause, hps]⟩

theorem link_written (a b : Identifier) {ss : List Clause} (h : ∀ s ∈ ss, Written s) :
    Written (linkClause a b ss) := by
  constructor
  · have hblock := @key_apart ⟨b, []⟩ _ (block_apart h)
    exact .cons_cons (.inr (.inr rfl)) (.cons_cons trivial (.cons_cons trivial
      (.cons_cons trivial hblock)))
  · obtain ⟨ps, hps⟩ := block_last ss
    exact ⟨.bare a :: (arrowPieces b ++ .word .colon :: ps), .closing,
      by simp [linkClause, hps]⟩

def ledChars (lines : List String) : List Char := lines.flatMap fun l => '\n' :: l.toList

theorem ledChars_append (ls ms : List String) : ledChars (ls ++ ms) = ledChars ls ++ ledChars ms :=
  List.flatMap_append

theorem spell_append (ps qs : List Piece) : spell (ps ++ qs) = spell ps ++ spell qs :=
  List.flatMap_append

theorem key_spelled (k : BarePath) : (".".intercalate k.segments).toList = spell k.pieces := by
  obtain ⟨first, rest⟩ := k
  rw [String.toList_intercalate]
  induction rest generalizing first with
  | nil => simp [BarePath.segments, BarePath.pieces, spell, Piece.spelling]
  | cons n rest ih =>
    have hrest := ih n
    simp only [BarePath.segments, List.map_cons, List.intercalate_cons_cons] at hrest ⊢
    rw [hrest]
    simp [BarePath.pieces, spell, Piece.spelling, Word.spelling]

theorem entry_spelled (e : Entry) :
    e.line.toList = spell (entryClause e.key e.value).pieces := by
  rw [entryClause, spell_append, ← key_spelled]
  simp [Entry.line, spell, Piece.spelling, Word.spelling]

theorem dotted_spelled (k : Identifier) (e : Entry) : (k.text ++ "." ++ e.line).toList =
    spell (entryClause (e.key.under k) e.value).pieces := by
  have hpieces : (entryClause (e.key.under k) e.value).pieces =
      .bare k :: .word .dot :: (entryClause e.key e.value).pieces := rfl
  rw [String.toList_append, entry_spelled, hpieces]
  simp [spell, Piece.spelling, Word.spelling]

theorem led_spelled {f : Entry → String} {g : Entry → Clause}
    (h : ∀ e, (f e).toList = spell (g e).pieces) (es : List Entry) :
    ledChars (es.map f) = spell (led (es.map g)) := by
  induction es with
  | nil => rfl
  | cons e es ih =>
    have hled : led ((e :: es).map g) = .word .newline :: (g e).pieces ++ led (es.map g) := by
      simp [led]
    rw [hled, spell_append, ← ih]
    simp [ledChars, h, spell, Piece.spelling, Word.spelling]

theorem block_spelled {head : List Piece} {line : String} {lines : List String}
    {ss : List Clause} (hline : line.toList = spell head) (h : ledChars lines = spell (led ss)) :
    ledChars ((line ++ ": \x7b") :: (lines ++ ["\x7d"])) =
      '\n' :: spell (head ++ .word .colon :: blockPieces ss) := by
  have hcons (l : String) (ls : List String) :
      ledChars (l :: ls) = '\n' :: l.toList ++ ledChars ls := List.flatMap_cons
  have hblock : spell (.word .colon :: blockPieces ss) =
      [':', ' ', '{'] ++ (spell (led ss) ++ ['\n', '}']) := by
    simp [blockPieces, spell, Piece.spelling, Word.spelling]
  rw [hcons, ledChars_append, h, spell_append, hblock, String.toList_append, hline]
  simp [ledChars]

theorem map_spelled (k : Identifier) (es : List Entry) :
    ledChars (mapLines k.text es) = spell (led
      [mapClause ⟨k, []⟩ (es.map fun e => entryClause e.key e.value)]) := by
  have hhead : k.text.toList = spell (BarePath.pieces ⟨k, []⟩) := by
    simp [BarePath.pieces, spell, Piece.spelling]
  rw [mapLines, block_spelled hhead (led_spelled entry_spelled es)]
  simp [led, mapClause, spell, Piece.spelling, Word.spelling]

theorem connection_spelled (a b : Identifier) {lines : List String} {ss : List Clause}
    (h : ledChars lines = spell (led ss)) :
    ledChars (connectionLines a b lines) = spell (led [linkClause a b ss]) := by
  have hhead : (a.text ++ " -> " ++ b.text).toList = spell (.bare a :: arrowPieces b) := by
    simp [arrowPieces, spell, Piece.spelling, Word.spelling, Connector.text]
  rw [connectionLines, block_spelled hhead h]
  simp [led, linkClause, spell, Piece.spelling, Word.spelling]

def finalPieces (final : Bool) : List Piece := if final then [.word .newline] else []

def finalTrees (final : Bool) (o : Nat) : List Tree :=
  if final then [.token (Word.newline.token o)] else []

theorem intercalate_led (line : String) (lines : List String) :
    '\n' :: ("\n".intercalate (line :: lines)).toList = ledChars (line :: lines) := by
  rw [String.toList_intercalate]
  induction lines generalizing line with
  | nil => simp [ledChars]
  | cons next lines ih =>
    have hrest := ih next
    simp only [List.map_cons, List.intercalate_cons_cons, ledChars, List.flatMap_cons] at hrest ⊢
    simp [← hrest]

theorem document_spelled (final : Bool) {lines : List String} {ss : List Clause}
    (h : ledChars lines = spell (led ss)) :
    (document final lines).toList = spell (rowPieces ss ++ finalPieces final) := by
  have hrow : ("\n".intercalate lines).toList = spell (rowPieces ss) := by
    cases ss with
    | nil =>
      cases lines with
      | nil => rfl
      | cons line lines => simp [ledChars, led, spell] at h
    | cons s ss =>
      have hled : spell (led (s :: ss)) = '\n' :: spell (rowPieces (s :: ss)) := by
        simp [led, rowPieces, spell, Piece.spelling, Word.spelling]
      cases lines with
      | nil => simp [ledChars, hled] at h
      | cons line lines =>
        rw [← intercalate_led, hled] at h
        exact List.tail_eq_of_cons_eq h
  rw [document, String.toList_append, hrow, spell_append]
  cases final <;> simp [finalPieces, spell, Piece.spelling, Word.spelling]

theorem document_takes (final : Bool) {ss : List Clause}
    (h : ∀ s ∈ ss, Reads (braced maxNesting) (array maxNesting) .document s) :
    Takes Grammar.document (tokens 0 (rowPieces ss ++ finalPieces final))
      (clauseTrees 0 ss ++ finalTrees final (0 + width (rowPieces ss))) [] := by
  have hend (o : Nat) : Stops (tokens o (finalPieces final) ++ []) ∧
      Takes (rounds (braced maxNesting) (array maxNesting) .document)
        (tokens o (finalPieces final)) (finalTrees final o) [] := by
    have hstop : Takes (rounds (braced maxNesting) (array maxNesting) .document) [] [] [] :=
      many_stops fun _ => rfl
    cases final with
    | false => exact ⟨by simp [Stops, tokens, finalPieces], hstop⟩
    | true => exact ⟨by simp [Stops, tokens, finalPieces, Piece.token, Piece.kind, Word.kind],
        newline_rounds o rfl hstop⟩
  cases ss with
  | nil => exact statements_takes (stops_trivia (hend 0).1) (hend 0).2
  | cons s ss =>
    rw [List.forall_mem_cons] at h
    obtain ⟨hstops, hfinal⟩ := hend (0 + width (rowPieces (s :: ss)))
    obtain ⟨hled, hrows⟩ := led_rounds h.2 (0 + width s.pieces) hstops hfinal
    have htokens : tokens 0 (rowPieces (s :: ss) ++ finalPieces final) = tokens 0 s.pieces ++
        (tokens (0 + width s.pieces) (led ss) ++
          tokens (0 + width (rowPieces (s :: ss))) (finalPieces final)) := by
      rw [pieces_append, rowPieces, pieces_append, List.append_assoc]
    have htrivia : triviaLength (tokens 0 s.pieces ++ (tokens (0 + width s.pieces) (led ss) ++
        tokens (0 + width (rowPieces (s :: ss))) (finalPieces final)) ++ []) = 0 := by
      obtain ⟨n, ps, hpieces⟩ := h.1.head
      rw [hpieces]
      exact trivia_none rfl _
    rw [htokens]
    exact statements_takes htrivia (statement_rounds h.1 0 hled hrows)

def Stands (n : Nat) (scope : Scope) (s : Clause) : Prop :=
  Written s ∧ Reads (braced n) (array n) scope s

theorem parse_document (final : Bool) {lines : List String} {ss : List Clause}
    (hlines : ledChars lines = spell (led ss)) (h : ∀ s ∈ ss, Stands maxNesting .document s) :
    parse (document final lines) =
      ⟨.node .document 0 (clauseTrees 0 ss ++ finalTrees final (0 + width (rowPieces ss))),
        []⟩ := by
  have hfinal : MayFollow (finalPieces final) := by
    cases final with
    | false => exact ⟨.nil, by simp [finalPieces]⟩
    | true => exact newline_follows .nil
  have hscan := tokenize_pieces (document_spelled final hlines)
    (row_apart (fun s hs => (h s hs).1) hfinal)
  have hread := document_takes final (fun s hs => (h s hs).2) (document final lines).utf8ByteSize
  rw [List.append_nil] at hread
  rw [parse, hscan, parseTokens, hread]
  rfl

end DiagramText.EntryLines
