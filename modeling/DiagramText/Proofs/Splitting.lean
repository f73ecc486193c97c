import DiagramText.Proofs.Ends
import DiagramText.Proofs.Measures
import DiagramText.Tree.Path

/-!
# Paths at their dots

The tokens of a path fall into pieces at its dots, and each piece spells a
segment without the trivia at its ends. Tokens without a dot go to the piece in
front of which they stand, and a joint, which is a dot with trivia around it,
only parts two pieces.
-/

set_option autoImplicit false

namespace DiagramText.Splitting
open Segment

theorem split_cons (ts : List Token) : ∃ piece pieces, splitAtDots ts = piece :: pieces := by
  cases ts with
  | nil => exact ⟨[], [], rfl⟩
  | cons t ts =>
    rw [splitAtDots]
    split
    · exact ⟨_, _, rfl⟩
    · split <;> exact ⟨_, _, rfl⟩

theorem split_mem {ts piece : List Token} (h : piece ∈ splitAtDots ts) :
    ∀ t ∈ piece, t ∈ ts := by
  induction ts generalizing piece with
  | nil =>
    obtain rfl : piece = [] := by simpa [splitAtDots] using h
    simp
  | cons t ts ih =>
    obtain ⟨first, others, hsplit⟩ := split_cons ts
    rw [hsplit] at ih
    have hfirst := fun u hu => List.mem_cons_of_mem t (ih List.mem_cons_self u hu)
    have hothers {q : List Token} (hq : q ∈ others) :=
      fun u hu => List.mem_cons_of_mem t (ih (List.mem_cons_of_mem first hq) u hu)
    simp only [splitAtDots, hsplit] at h
    split at h
    · rcases List.mem_cons.mp h with rfl | h
      · simp
      · rcases List.mem_cons.mp h with rfl | h
        · exact hfirst
        · exact hothers h
    · rcases List.mem_cons.mp h with rfl | h
      · exact List.forall_mem_cons.mpr ⟨List.mem_cons_self, hfirst⟩
      · exact hothers h

theorem split_plain {us ts piece : List Token} {pieces : List (List Token)}
    (h : ∀ t ∈ us, t.kind ≠ .dot) (hs : splitAtDots ts = piece :: pieces) :
    splitAtDots (us ++ ts) = (us ++ piece) :: pieces := by
  induction us with
  | nil => exact hs
  | cons t us ih =>
    obtain ⟨hdot, hrest⟩ := List.forall_mem_cons.mp h
    rw [List.cons_append, splitAtDots, ih hrest]
    simp [hdot]

theorem split_one {us : List Token} (h : ∀ t ∈ us, t.kind ≠ .dot) : splitAtDots us = [us] := by
  simpa using @split_plain us [] [] [] h rfl

theorem split_dot {dot : Token} (h : dot.kind = .dot) (ts : List Token) :
    splitAtDots (dot :: ts) = [] :: splitAtDots ts := by
  obtain ⟨piece, pieces, hs⟩ := split_cons ts
  simp [splitAtDots, hs, h]

theorem split_first {t : Token} (ht : t.kind ≠ .dot) (ts : List Token) :
    ∃ piece pieces, splitAtDots (t :: ts) = (t :: piece) :: pieces := by
  obtain ⟨piece, pieces, hs⟩ := split_cons ts
  exact ⟨piece, pieces, @split_plain [t] ts _ _ (by simpa using ht) hs⟩

theorem split_literal {t dot : Token} {ts : List Token} (ht : t.kind ≠ .dot)
    (hd : dot.kind = .dot) : splitAtDots (t :: dot :: ts) = [t] :: splitAtDots ts :=
  @split_plain [t] (dot :: ts) _ _ (by simpa using ht) (split_dot hd ts)

theorem trivia_undotted {t : Token} (h : t.isTrivia = true) : t.kind ≠ .dot := by
  intro hk
  simp [Token.isTrivia, hk, TokenKind.isTrivia] at h

/-- A joint parts the tokens in front of it from the first piece behind it. -/
theorem split_joint {us before after ts piece : List Token} {pieces : List (List Token)}
    {dot : Token} (hus : ∀ t ∈ us, t.kind ≠ .dot) (hbefore : ∀ t ∈ before, t.isTrivia = true)
    (hdot : dot.kind = .dot) (hafter : ∀ t ∈ after, t.isTrivia = true)
    (hs : splitAtDots ts = piece :: pieces) :
    splitAtDots (us ++ (before ++ dot :: after) ++ ts) =
      (us ++ before) :: (after ++ piece) :: pieces := by
  have hbehind := split_plain (fun t ht => trivia_undotted (hafter t ht)) hs
  have hfront : ∀ t ∈ us ++ before, t.kind ≠ .dot :=
    List.forall_mem_append.mpr ⟨hus, fun t ht => trivia_undotted (hbefore t ht)⟩
  have hsplit := split_plain hfront ((split_dot hdot (after ++ ts)).trans (by rw [hbehind]))
  simpa using hsplit

theorem trim_mem {t : Token} {piece : List Token} (h : t ∈ trimTrivia piece) : t ∈ piece := by
  rw [Ends.trim_trivia] at h
  exact Ends.stripped_mem h

theorem trim_before {us : List Token} (h : ∀ t ∈ us, t.isTrivia = true) (ts : List Token) :
    trimTrivia (us ++ ts) = trimTrivia ts := by
  rw [Ends.trim_trivia, Ends.stripped_before h, ← Ends.trim_trivia]

theorem trim_after {us : List Token} (h : ∀ t ∈ us, t.isTrivia = true) (ts : List Token) :
    trimTrivia (ts ++ us) = trimTrivia ts := by
  rw [Ends.trim_trivia, Ends.stripped_after h, ← Ends.trim_trivia]

theorem trim_keeps {t : Token} {piece : List Token} (h : t ∈ piece) (ht : t.isTrivia = false) :
    t ∈ trimTrivia piece := by
  rw [Ends.trim_trivia]
  exact Ends.stripped_keeps h ht

theorem trim_solid {t u : Token} {ts : List Token} (ht : t.isTrivia = false)
    (hu : u ∈ (t :: ts).getLast?) (hlast : u.isTrivia = false) :
    trimTrivia (t :: ts) = t :: ts := by
  have hends : ∀ v ∈ (t :: ts).getLast?, v.isTrivia = false := by
    intro v hv
    obtain rfl := Option.mem_unique hu hv
    exact hlast
  rw [Ends.trim_trivia, Ends.stripped_solid (by simpa using ht) hends]

theorem piece_segment {t : Token} {piece : List Token} (h : t ∈ piece)
    (ht : t.isTrivia = false) : (ofTokens? piece).isSome = true := by
  have hmem := trim_keeps h ht
  unfold ofTokens?
  split
  · next hnil => simp [hnil] at hmem
  · split <;> rfl
  · rfl

theorem word_segment {t : Token} (h : t.kind = .identifier) :
    ofTokens? [t] = some ⟨t.spelling, false⟩ := by
  simp [ofTokens?, trimTrivia, Token.isTrivia, TokenKind.isTrivia, h]

theorem string_segment {t : Token} (h : t.kind = .string) :
    ofTokens? [t] = some ⟨.ofList (Literal.unescape t.text), true⟩ := by
  simp [ofTokens?, trimTrivia, Token.isTrivia, TokenKind.isTrivia, h]

/-- Trivia around a piece does not belong to its segment. -/
theorem trim_segment {ts us : List Token} (h : trimTrivia ts = trimTrivia us) :
    ofTokens? ts = ofTokens? us := by
  rw [ofTokens?, ofTokens?, h]

end DiagramText.Splitting
