import DiagramText.Proofs.QuotedLiterals
import Mathlib.Data.List.Chain

/-!
# Written diagrams

A diagram is a list of statements: shapes with an optional label and an
optional body, and chains of links between shapes. It is written one statement
a line, with every name and label as a quoted literal. The words of a written
diagram stand apart, so the scanner cuts the text into just these words and
finds no fault, whatever the literals hold.
-/

set_option autoImplicit false

namespace DiagramText.Rendering
open Text Lexeme Scanning Lines

/-- The path of a shape, which has at least one segment. -/
structure Name where
  first : String
  rest : List String

namespace Name

def segments (n : Name) : List String := n.first :: n.rest

end Name

structure Link where
  connector : Connector
  target : Name

inductive Item where
  | shape (name : Name) (label : Option String) (body : Option (List Item))
  | chain (source : Name) (link : Link) (links : List Link) (label : Option String)

mutual

/-- How deep the bodies of a statement nest. -/
def depth : Item → Nat
  | .shape _ _ body => bodyDepth body
  | .chain .. => 0

def bodyDepth : Option (List Item) → Nat
  | none => 0
  | some items => rowDepth items + 1

def rowDepth : List Item → Nat
  | [] => 0
  | item :: items => max (depth item) (rowDepth items)

end

inductive Word where
  | literal (text : String)
  | dot
  | colon
  | space
  | opening
  | closing
  | newline
  | connector (c : Connector)

namespace Word

def kind : Word → TokenKind
  | literal _ => .string
  | dot => .dot
  | colon => .colon
  | space => .whitespace
  | opening => .leftBrace
  | closing => .rightBrace
  | newline => .newline
  | connector .forward => .arrow
  | connector .backward => .leftArrow
  | connector .bidirectional => .doubleArrow
  | connector .undirected => .line

def spelling : Word → List Char
  | literal text => Literal.write '"' text.toList
  | dot => ['.']
  | colon => [':']
  | space => [' ']
  | opening => ['{']
  | closing => ['}']
  | newline => ['\n']
  | connector c => c.text.toList

def token (o : Nat) (w : Word) : Token := ⟨w.kind, o, w.spelling⟩

end Word

def spell (ws : List Word) : List Char := ws.flatMap Word.spelling

def width (ws : List Word) : Nat := byteSize (spell ws)

/-- The tokens of a row of words that starts at an offset. -/
def tokens (o : Nat) : List Word → List Token
  | [] => []
  | w :: ws => w.token o :: tokens (o + byteSize w.spelling) ws

def nameWords (n : Name) : List Word :=
  .literal n.first :: n.rest.flatMap fun s => [.dot, .literal s]

def labelWords : Option String → List Word
  | none => []
  | some text => [.colon, .space, .literal text]

def linkWords (l : Link) : List Word :=
  [.space, .connector l.connector, .space] ++ nameWords l.target

mutual

def itemWords : Item → List Word
  | .shape name label body => nameWords name ++ labelWords label ++ bodyWords body
  | .chain source link links label =>
    nameWords source ++ (link :: links).flatMap linkWords ++ labelWords label

def bodyWords : Option (List Item) → List Word
  | none => []
  | some items => [.space, .opening, .newline] ++ rowWords items ++ [.closing]

def rowWords : List Item → List Word
  | [] => []
  | item :: items => itemWords item ++ .newline :: rowWords items

end

def render (items : List Item) : String := .ofList (spell (rowWords items))

/-- What may stand behind a word for the scanner to end the word there. -/
def Word.endsBefore (rest : List Char) : Word → Prop
  | .literal _ => rest.head? ≠ some '"'
  | .space => rest.head?.any isSpace = false
  | .connector _ => rest.head? ≠ some '>'
  | _ => True

theorem word_read (w : Word) {rest : List Char} (h : w.endsBefore rest) :
    ∃ c cs, w.spelling = c :: cs ∧
      Lexeme.read false [] c (cs ++ rest) = (.ok w.kind, cs.length) := by
  cases w with
  | literal text =>
    obtain ⟨body, hbody, hread⟩ := QuotedLiterals.write_read (q := '"') rfl text.toList h []
    refine ⟨'"', body ++ ['"'], hbody, ?_⟩
    simpa [Word.kind] using hread
  | space =>
    have hnone : rest.takeWhile isSpace = [] := by
      cases rest with
      | nil => rfl
      | cons c rest =>
        have hc : isSpace c = false := h
        simp [hc]
    refine ⟨' ', [], rfl, ?_⟩
    have hblank : isBlank ' ' = true := by decide
    simp [Lexeme.read, readPlain, connector?, hblank, hnone, Word.kind]
  | connector c =>
    cases c with
    | forward => exact ⟨'-', ['>'], rfl, by simp [Lexeme.read, readPlain, connector?, Word.kind]⟩
    | backward =>
      refine ⟨'<', ['-'], rfl, ?_⟩
      cases rest with
      | nil => rfl
      | cons c rest =>
        have hc : c ≠ '>' := by simpa [Word.endsBefore] using h
        simp [Lexeme.read, readPlain, connector?, Word.kind, List.isPrefixOf, Ne.symm hc]
    | bidirectional =>
      exact ⟨'<', ['-', '>'], rfl, by simp [Lexeme.read, readPlain, connector?, Word.kind]⟩
    | undirected => exact ⟨'-', ['-'], rfl, by simp [Lexeme.read, readPlain, connector?, Word.kind]⟩
  | newline => exact ⟨'\n', [], rfl, rfl⟩
  | dot => exact ⟨'.', [], rfl, rfl⟩
  | colon => exact ⟨':', [], rfl, rfl⟩
  | opening => exact ⟨'{', [], rfl, rfl⟩
  | closing => exact ⟨'}', [], rfl, rfl⟩

theorem word_faultless (w : Word) (o : Nat) : Lexeme.diagnostics (w.token o) (.ok w.kind) = [] := by
  cases w with
  | literal text => exact QuotedLiterals.write_known rfl text.toList o
  | connector c => cases c <;> rfl
  | _ => rfl

theorem word_next (w : Word) (o : Nat) {rest : List Char} (h : w.endsBefore rest) :
    Scanner.next? ⟨w.spelling ++ rest, o, false, [], []⟩ =
      some (w.token o, ⟨rest, o + byteSize w.spelling, false, [], []⟩) := by
  obtain ⟨c, cs, hw, hread⟩ := word_read w h
  have hword : (w.kind == .identifier) = false ∧ w.kind ≠ .symbol := by
    cases w with
    | connector c => cases c <;> exact ⟨rfl, by simp [Word.kind]⟩
    | _ => exact ⟨rfl, by simp [Word.kind]⟩
  have htoken : w.token o = ⟨w.kind, o, c :: cs⟩ := by rw [Word.token, hw]
  have hfaults := word_faultless w o
  rw [htoken] at hfaults
  simp only [hw, List.cons_append, Scanner.next?, hread, Lexeme.kind, List.take_left,
    List.drop_left, hfaults, htoken, Scanner.noteUnclosed, hword, false_and, if_false]
  rfl

def Separate : Word → Word → Prop
  | .literal _, .literal _ => False
  | .space, .space => False
  | _, _ => True

theorem spell_head (w : Word) (ws : List Word) : (spell (w :: ws)).head? = w.spelling.head? := by
  have h : w.spelling ≠ [] := by
    cases w with
    | connector c => cases c <;> simp [Word.spelling, Connector.text]
    | _ => simp [Word.spelling, Literal.write]
  rw [spell, List.flatMap_cons, List.head?_append_of_ne_nil _ h]

theorem separate_ends {w : Word} {ws : List Word} (h : ∀ v ∈ ws.head?, Separate w v) :
    w.endsBefore (spell ws) := by
  cases ws with
  | nil => cases w <;> simp [Word.endsBefore, spell]
  | cons v ws =>
    have hv := h v rfl
    have hquote (text : String) : (Word.literal text).spelling.head? = some '"' := rfl
    cases w with
    | literal text =>
      rw [Word.endsBefore, spell_head]
      cases v with
      | literal => exact absurd hv id
      | connector c => cases c <;> decide
      | _ => decide
    | space =>
      rw [Word.endsBefore, spell_head]
      cases v with
      | literal => rw [hquote]; decide
      | space => exact absurd hv id
      | connector c => cases c <;> decide
      | _ => decide
    | connector c =>
      rw [Word.endsBefore, spell_head]
      cases v with
      | literal => rw [hquote]; decide
      | connector c => cases c <;> decide
      | _ => decide
    | _ => trivial

theorem words_scan (ws : List Word) (h : ws.IsChain Separate) (o : Nat) :
    Scanner.drain ⟨spell ws, o, false, [], []⟩ =
      (tokens o ws, ⟨[], o + width ws, false, [], []⟩) := by
  induction ws generalizing o with
  | nil => exact drain_end rfl
  | cons w ws ih =>
    obtain ⟨hw, hws⟩ := List.isChain_cons.mp h
    have hnext := word_next w o (separate_ends hw)
    have hspell : spell (w :: ws) = w.spelling ++ spell ws := List.flatMap_cons
    rw [hspell, drain_next hnext, ih hws]
    simp [tokens, width, hspell, Nat.add_assoc]

/-- Words that may follow a literal. -/
def Trails (ws : List Word) : Prop :=
  ws.IsChain Separate ∧ ∀ v ∈ ws.head?, ∀ text, v ≠ .literal text

theorem literal_separate (text : String) {ws : List Word} (h : Trails ws) :
    (Word.literal text :: ws).IsChain Separate := by
  refine List.isChain_cons.mpr ⟨fun v hv => ?_, h.1⟩
  cases v with
  | literal s => exact h.2 _ hv s rfl
  | _ => trivial

theorem newline_trails {ws : List Word} (h : ws.IsChain Separate) : Trails (.newline :: ws) :=
  ⟨List.isChain_cons.mpr ⟨fun _ _ => trivial, h⟩, by simp⟩

theorem name_separate (n : Name) {ws : List Word} (h : Trails ws) :
    (nameWords n ++ ws).IsChain Separate := by
  obtain ⟨first, rest⟩ := n
  rw [nameWords, List.cons_append]
  apply literal_separate
  induction rest with
  | nil => exact h
  | cons s rest ih =>
    refine ⟨List.isChain_cons.mpr ⟨fun _ _ => trivial, ?_⟩, by simp⟩
    exact literal_separate s ih

theorem label_trails (label : Option String) {ws : List Word} (h : Trails ws) :
    Trails (labelWords label ++ ws) := by
  cases label with
  | none => exact h
  | some text =>
    have htext := literal_separate text h
    exact ⟨.cons_cons trivial (.cons_cons trivial htext), by simp [labelWords]⟩

theorem link_trails (l : Link) {ws : List Word} (h : Trails ws) : Trails (linkWords l ++ ws) := by
  have hname := name_separate l.target h
  exact ⟨.cons_cons trivial (.cons_cons trivial (.cons_cons trivial hname)), by simp [linkWords]⟩

theorem links_trail (ls : List Link) {ws : List Word} (h : Trails ws) :
    Trails (ls.flatMap linkWords ++ ws) := by
  induction ls with
  | nil => exact h
  | cons l ls ih =>
    rw [List.flatMap_cons, List.append_assoc]
    exact link_trails l ih

mutual

theorem item_separate (item : Item) {ws : List Word} (h : Trails ws) :
    (itemWords item ++ ws).IsChain Separate := by
  cases item with
  | shape name label body =>
    rw [itemWords, List.append_assoc, List.append_assoc]
    exact name_separate name (label_trails label (body_trails body h))
  | chain source link links label =>
    rw [itemWords, List.append_assoc, List.append_assoc]
    exact name_separate source (links_trail (link :: links) (label_trails label h))

theorem body_trails (body : Option (List Item)) {ws : List Word} (h : Trails ws) :
    Trails (bodyWords body ++ ws) := by
  cases body with
  | none => exact h
  | some items =>
    have hclosing : (Word.closing :: ws).IsChain Separate :=
      List.isChain_cons.mpr ⟨fun _ _ => trivial, h.1⟩
    have hrow := (newline_trails (row_separate items hclosing)).1
    have hwords : bodyWords (some items) ++ ws =
        .space :: .opening :: .newline :: (rowWords items ++ .closing :: ws) := by
      simp [bodyWords]
    rw [hwords]
    exact ⟨.cons_cons trivial (.cons_cons trivial hrow), by simp⟩

theorem row_separate (items : List Item) {ws : List Word} (h : ws.IsChain Separate) :
    (rowWords items ++ ws).IsChain Separate := by
  cases items with
  | nil => exact h
  | cons item items =>
    rw [rowWords, List.append_assoc]
    exact item_separate item (newline_trails (row_separate items h))

end

theorem tokenize_render (items : List Item) :
    tokenize (render items) = (tokens 0 (rowWords items), []) := by
  have happart : (rowWords items).IsChain Separate := by
    simpa using @row_separate items [] .nil
  have hscan := words_scan (rowWords items) happart 0
  have htext : Scanner.ofText (render items) = ⟨spell (rowWords items), 0, false, [], []⟩ := by
    simp [Scanner.ofText, render]
  rw [tokenize, htext, hscan]

end DiagramText.Rendering
