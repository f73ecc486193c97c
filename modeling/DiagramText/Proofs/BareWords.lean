import DiagramText.Proofs.LetterCase
import DiagramText.Proofs.RoundTrip

/-!
# Rows of bare words

A text that the scanner reads as one word is read as that word wherever
something stands behind it that no word goes on with. Reserved words are such
texts in either letter case. Rows of words, literals and marks that stand
apart are cut into just these, and a dotted path of words is measured by
lookahead up to its end.
-/

set_option autoImplicit false

namespace DiagramText.BareWords
open Text Lexeme Scanning Lines Rendering Rereading Rule Lookahead Measures

/-- A text that the scanner reads as one word. -/
structure Identifier where
  text : String
  lexeme : (tokenize text).1 = [⟨.identifier, 0, text.toList⟩]

structure SpellsWord (c : Char) (cs : List Char) : Prop where
  first : isWordChar c = true
  shown : isBlank c = false
  rest : wordLength cs = cs.length

theorem Identifier.spells (n : Identifier) : ∃ c cs, n.text.toList = c :: cs ∧ SpellsWord c cs := by
  obtain ⟨text, lexeme⟩ := n
  cases hchars : text.toList with
  | nil =>
    have hend : (Scanner.ofText text).next? = none := by
      simp [Scanner.ofText, hchars, Scanner.next?]
    rw [tokenize, drain_end hend] at lexeme
    simp at lexeme
  | cons c cs =>
    refine ⟨c, cs, rfl, ?_⟩
    obtain ⟨s, hnext⟩ : ∃ s, (Scanner.ofText text).next? =
        some (⟨kind (Lexeme.read false [] c cs).1, 0,
          c :: cs.take (Lexeme.read false [] c cs).2⟩, s) := by
      rw [Scanner.ofText, hchars]
      exact ⟨_, rfl⟩
    rw [tokenize, drain_next hnext, hchars] at lexeme
    simp only [List.cons.injEq, Token.mk.injEq, true_and] at lexeme
    obtain ⟨⟨hkind, htake⟩, -⟩ := lexeme
    obtain ⟨hword, hblank, hlength⟩ := (read_greedy false [] c cs).word hkind
    refine ⟨hword, hblank, ?_⟩
    have hle := (word_length cs []).2
    have hall := congrArg List.length htake
    rw [List.length_take] at hall
    omega

def Breaks (rest : List Char) : Prop := ∀ d ∈ rest.head?, isWordChar d = false ∧ d ≠ '-'

theorem word_breaks {cs rest : List Char} (hcs : wordLength cs = cs.length) (h : Breaks rest) :
    wordLength (cs ++ rest) = cs.length := by
  fun_induction wordLength cs with
  | case1 c cs hc ih =>
    have ih := ih (by simpa using hcs)
    simp [wordLength, hc, ih]
  | case2 c cs hc => simp at hcs
  | case3 c cs hne hc ih =>
    have hhyphen : c ≠ '-' := by
      rintro rfl
      exact absurd hc (by decide)
    rw [List.cons_append, word_step hhyphen, if_pos hc, ih (by simpa using hcs), List.length_cons]
  | case4 c cs hne hc => simp at hcs
  | case5 =>
    cases rest with
    | nil => rfl
    | cons d rest =>
      obtain ⟨hword, hhyphen⟩ := h d rfl
      rw [List.nil_append, word_step hhyphen, if_neg (by simp [hword])]
      rfl

theorem spells_read {c : Char} {cs rest : List Char} (h : SpellsWord c cs) (hrest : Breaks rest)
    (afterWord : Bool) (unclosed : List Nat) :
    Lexeme.read afterWord unclosed c (cs ++ rest) = (.ok .identifier, cs.length) := by
  have hother (d : Char) (hd : isWordChar d = false) : c ≠ d := by
    rintro rfl
    simp [h.first] at hd
  have hless := hother '<' (by decide)
  have hhyphen := hother '-' (by decide)
  have hnewline := hother '\n' (by decide)
  have hhash := hother '#' (by decide)
  have hquote := hother '"' (by decide)
  have hsingle := hother '\'' (by decide)
  have hpipe := hother '|' (by decide)
  simp [Lexeme.read, readPlain, connector?, hless, hhyphen, hnewline, hhash, hquote, hsingle, hpipe,
    h.first, h.shown, word_breaks h.rest hrest]

theorem reserved_lexeme : ∀ w ∈ Keyword.reserved,
    (tokenize w).1 = [⟨.identifier, 0, w.toList⟩] := by
  decide +kernel

theorem keyword_lexeme {k : String} (h : Keyword.isReserved k = true) :
    (tokenize k).1 = [⟨.identifier, 0, k.toList⟩] := by
  obtain ⟨w, hw, hfold⟩ := List.any_eq_true.mp h
  have hupper : LetterCase.upper k = LetterCase.upper w := by
    apply String.toList_injective
    rw [LetterCase.upper_chars, LetterCase.upper_chars,
      LetterCase.folded_raised (beq_iff_eq.mp hfold).symm]
  have htokens := LetterCase.tokenize_upper k
  rw [hupper, LetterCase.tokenize_upper w, reserved_lexeme w hw] at htokens
  have hspelled := Scanning.tokenize_spells k
  obtain ⟨t, ht, hsame⟩ := List.map_eq_singleton_iff.mp htokens.symm
  rw [ht] at hspelled ⊢
  obtain ⟨kind, start, text⟩ := t
  obtain ⟨rfl, rfl, -⟩ : kind = .identifier ∧ start = 0 ∧ _ := by
    simpa [LetterCase.upperCase] using hsame
  obtain rfl : text = k.toList := by simpa using hspelled
  rfl

/-- What a written line is made of. -/
inductive Piece where
  | word (w : Word)
  | bare (n : Identifier)

namespace Piece

def kind : Piece → TokenKind
  | word w => w.kind
  | bare _ => .identifier

def spelling : Piece → List Char
  | word w => w.spelling
  | bare n => n.text.toList

def token (o : Nat) (p : Piece) : Token := ⟨p.kind, o, p.spelling⟩

def endsBefore (rest : List Char) : Piece → Prop
  | word w => w.endsBefore rest
  | bare _ => Breaks rest

end Piece

def spell (ps : List Piece) : List Char := ps.flatMap Piece.spelling

def width (ps : List Piece) : Nat := byteSize (spell ps)

/-- The tokens of a row of pieces that starts at an offset. -/
def tokens (o : Nat) : List Piece → List Token
  | [] => []
  | p :: ps => p.token o :: tokens (o + byteSize p.spelling) ps

theorem pieces_append (o : Nat) (ps qs : List Piece) :
    tokens o (ps ++ qs) = tokens o ps ++ tokens (o + width ps) qs := by
  induction ps generalizing o with
  | nil => simp [tokens, width, spell]
  | cons p ps ih => simp [tokens, ih, width, spell, Nat.add_assoc]

theorem pieces_length (o : Nat) (ps : List Piece) : (tokens o ps).length = ps.length := by
  induction ps generalizing o with
  | nil => rfl
  | cons p ps ih => simp [tokens, ih]

theorem next_after {cs : List Char} (h : cs.head? ≠ some '\'') (o : Nat) (afterWord : Bool) :
    Scanner.next? ⟨cs, o, afterWord, [], []⟩ = Scanner.next? ⟨cs, o, false, [], []⟩ := by
  cases cs with
  | nil => rfl
  | cons c cs =>
    have hc : c ≠ '\'' := by simpa using h
    have hread : Lexeme.read afterWord [] c cs = Lexeme.read false [] c cs := by
      simp [Lexeme.read, hc]
    simp only [Scanner.next?, hread]

theorem word_unquoted (w : Word) : ∃ c cs, w.spelling = c :: cs ∧ c ≠ '\'' := by
  cases w with
  | connector c => cases c <;> exact ⟨_, _, rfl, by decide⟩
  | _ => exact ⟨_, _, rfl, by decide⟩

theorem piece_next (p : Piece) (o : Nat) (afterWord : Bool) {rest : List Char}
    (h : p.endsBefore rest) : ∃ afterPiece,
    Scanner.next? ⟨p.spelling ++ rest, o, afterWord, [], []⟩ =
      some (p.token o, ⟨rest, o + byteSize p.spelling, afterPiece, [], []⟩) := by
  cases p with
  | word w =>
    obtain ⟨c, cs, hw, hc⟩ := word_unquoted w
    refine ⟨false, ?_⟩
    rw [next_after (by simp [Piece.spelling, hw, hc])]
    exact word_next w o h
  | bare n =>
    obtain ⟨c, cs, hn, hspells⟩ := n.spells
    refine ⟨true, ?_⟩
    have hread := spells_read hspells h afterWord []
    simp only [Piece.spelling, Piece.token, Piece.kind, hn, List.cons_append, Scanner.next?, hread,
      Lexeme.kind, List.take_left, List.drop_left]
    simp [Scanner.noteUnclosed, Lexeme.diagnostics, Token.stop]

def Unfused : Piece → Piece → Prop
  | .word v, .word w => Separate v w
  | .word _, .bare _ => True
  | .bare _, .word w => w = .dot ∨ w = .colon ∨ w = .space
  | .bare _, .bare _ => False

theorem apart_ends {p : Piece} {ps : List Piece} (h : ∀ q ∈ ps.head?, Unfused p q) :
    p.endsBefore (spell ps) := by
  cases ps with
  | nil =>
    cases p with
    | word w => exact @separate_ends w [] (by simp)
    | bare n => simp [Piece.endsBefore, Breaks, spell]
  | cons q ps =>
    have hq := h q rfl
    cases q with
    | bare n =>
      obtain ⟨c, cs, hn, hspells⟩ := n.spells
      have hhead : (spell (.bare n :: ps)).head? = some c := by
        simp [spell, Piece.spelling, hn]
      have hother (d : Char) (hd : isWordChar d = false) : c ≠ d := by
        rintro rfl
        simp [hspells.first] at hd
      cases p with
      | bare => exact absurd hq id
      | word w =>
        cases w with
        | literal text =>
          simpa [Piece.endsBefore, Word.endsBefore, hhead] using hother '"' (by decide)
        | connector =>
          simpa [Piece.endsBefore, Word.endsBefore, hhead] using hother '>' (by decide)
        | space => simp [Piece.endsBefore, Word.endsBefore, hhead, isSpace, hspells.shown]
        | _ => trivial
    | word w =>
      have hhead : (spell (.word w :: ps)).head? = w.spelling.head? := by
        obtain ⟨c, cs, hw, -⟩ := word_unquoted w
        simp [spell, Piece.spelling, hw]
      cases p with
      | word v =>
        have hseparate : Separate v w := hq
        have hends := @separate_ends v [w] (by simpa using hseparate)
        have hone : Rendering.spell [w] = w.spelling := by simp [Rendering.spell]
        rw [hone] at hends
        cases v with
        | literal => simpa [Piece.endsBefore, Word.endsBefore, hhead] using hends
        | connector => simpa [Piece.endsBefore, Word.endsBefore, hhead] using hends
        | space => simpa [Piece.endsBefore, Word.endsBefore, hhead] using hends
        | _ => trivial
      | bare n =>
        rw [Piece.endsBefore, Breaks, hhead]
        rcases hq with rfl | rfl | rfl <;> simp [Word.spelling] <;> decide

theorem pieces_scan (ps : List Piece) (h : ps.IsChain Unfused) (o : Nat) (afterWord : Bool) :
    (Scanner.drain ⟨spell ps, o, afterWord, [], []⟩).1 = tokens o ps ∧
      (Scanner.drain ⟨spell ps, o, afterWord, [], []⟩).2.diagnostics = [] := by
  induction ps generalizing o afterWord with
  | nil =>
    rw [drain_end rfl]
    exact ⟨rfl, rfl⟩
  | cons p ps ih =>
    obtain ⟨hp, hps⟩ := List.isChain_cons.mp h
    obtain ⟨afterPiece, hnext⟩ := piece_next p o afterWord (apart_ends hp)
    have hspell : spell (p :: ps) = p.spelling ++ spell ps := List.flatMap_cons
    obtain ⟨htokens, hsilent⟩ := ih hps (o + byteSize p.spelling) afterPiece
    rw [hspell, drain_next hnext, htokens]
    exact ⟨rfl, hsilent⟩

theorem tokenize_pieces {text : String} {ps : List Piece} (htext : text.toList = spell ps)
    (h : ps.IsChain Unfused) : tokenize text = (tokens 0 ps, []) := by
  obtain ⟨htokens, hsilent⟩ := pieces_scan ps h 0 false
  rw [tokenize, Scanner.ofText, htext, htokens, hsilent]

/-- A path of words, which has at least one. -/
structure BarePath where
  first : Identifier
  rest : List Identifier

namespace BarePath

def segments (k : BarePath) : List String := k.first.text :: k.rest.map (·.text)

def under (n : Identifier) (k : BarePath) : BarePath := ⟨n, k.first :: k.rest⟩

def pieces (k : BarePath) : List Piece :=
  .bare k.first :: k.rest.flatMap fun n => [.word .dot, .bare n]

def tree (kind : NodeKind) (o : Nat) (k : BarePath) : Tree :=
  .node kind o ((tokens o k.pieces).map .token)

end BarePath

theorem key_path (k : BarePath) (o : Nat) {rest : List Token} (hdot : nextKind rest ≠ some .dot)
    (hwords : moreWords rest = 0) :
    path (tokens o k.pieces ++ rest) = ⟨k.pieces.length, k.segments.any Keyword.isReserved⟩ := by
  obtain ⟨first, segments⟩ := k
  have hsegment (o : Nat) (n : Identifier) {us : List Token} (hus : moreWords us = 0) :
      segmentLength ((Piece.bare n).token o :: us) = 1 ∧
        isKeywordSegment ((Piece.bare n).token o :: us) = Keyword.isReserved n.text := by
    simp [isKeywordSegment, segmentLength, Piece.token, Piece.kind, Piece.spelling, hus,
      Token.spelling]
  induction segments generalizing first o with
  | nil =>
    have htokens : tokens o (BarePath.pieces ⟨first, []⟩) = [(Piece.bare first).token o] := rfl
    rw [htokens, List.singleton_append, path]
    simp [hsegment o first hwords, joint_none hdot, BarePath.pieces, BarePath.segments]
  | cons n segments ih =>
    have hpieces : BarePath.pieces ⟨first, n :: segments⟩ =
        .bare first :: .word .dot :: BarePath.pieces ⟨n, segments⟩ := rfl
    have hmore (o : Nat) :
        moreWords (tokens o (.word .dot :: BarePath.pieces ⟨n, segments⟩) ++ rest) = 0 := rfl
    have hjoint (o : Nat) :
        jointLength? (tokens o (.word .dot :: BarePath.pieces ⟨n, segments⟩) ++ rest) = some 1 := by
      simp [BarePath.pieces, tokens, Piece.token, Piece.kind, Word.kind, jointLength?, triviaLength,
        Token.isTrivia, TokenKind.isTrivia, startsSegment]
    rw [hpieces, tokens, List.cons_append, path]
    simp only [hsegment o first (hmore _), List.drop_succ_cons, List.drop_zero, hjoint]
    simp [tokens, ih, BarePath.segments]
    omega

theorem key_takes (kind : NodeKind) (k : BarePath) (o : Nat) {rest : List Token}
    (hdot : nextKind rest ≠ some .dot) (hwords : moreWords rest = 0) :
    Takes (node kind (take pathLength)) (tokens o k.pieces) [k.tree kind o] rest := by
  have htake : Takes (take pathLength) (tokens o k.pieces)
      ((tokens o k.pieces).map .token) rest := by
    apply take_takes
    rw [pathLength, key_path k o hdot hwords, pieces_length]
  exact node_takes kind rfl htake

theorem key_split (k : BarePath) (o : Nat) :
    (Segment.splitAtDots (tokens o k.pieces)).filterMap Segment.ofTokens? =
      k.segments.map (⟨·, false⟩) := by
  obtain ⟨first, rest⟩ := k
  have hsegment (o : Nat) (n : Identifier) :
      Segment.ofTokens? [(Piece.bare n).token o] = some ⟨n.text, false⟩ := by
    rw [Splitting.word_segment rfl]
    simp [Piece.token, Piece.spelling, Token.spelling]
  induction rest generalizing first o with
  | nil =>
    have hsplit : Segment.splitAtDots (tokens o (BarePath.pieces ⟨first, []⟩)) =
        [[(Piece.bare first).token o]] := rfl
    simp [hsplit, hsegment, BarePath.segments]
  | cons n rest ih =>
    have hpieces : BarePath.pieces ⟨first, n :: rest⟩ =
        .bare first :: .word .dot :: BarePath.pieces ⟨n, rest⟩ := rfl
    have hbare (o : Nat) : ((Piece.bare first).token o).kind ≠ .dot := by
      simp [Piece.token, Piece.kind]
    rw [hpieces, tokens, tokens, Splitting.split_literal (hbare o) rfl, List.filterMap_cons,
      hsegment, ih]
    rfl

theorem key_segments (kind : NodeKind) (k : BarePath) (o : Nat) :
    (k.tree kind o).pathSegments = k.segments.map (⟨·, false⟩) := by
  have htokens : (k.tree kind o).tokens = tokens o k.pieces := Tree.tokensAll_map_token _
  rw [Tree.pathSegments, htokens, key_split]

end DiagramText.BareWords
