import DiagramText.LineIndex
import Mathlib.Data.List.TakeWhile

/-!
# Lines and columns of a place

An offset is on the line that the newlines before it count, and at the column
of the UTF-16 units since the last of them; both look at the characters that
start before the offset. The index, which steps from line to line, finds just
these.
-/

set_option autoImplicit false

namespace DiagramText.Positions
open Text LineIndex

section
variable {a c : Char}

theorem pieces_ne_nil (a : Char) (cs : List Char) : pieces a cs ≠ [] := by
  cases cs with
  | nil => simp [pieces]
  | cons c cs =>
    rw [pieces]
    split
    · simp
    · split <;> simp

theorem pieces_separator (a : Char) (cs : List Char) : pieces a (a :: cs) = [] :: pieces a cs := by
  rw [pieces]
  split
  · next h => exact absurd h (pieces_ne_nil a cs)
  · next h => rw [if_pos rfl, h]

theorem pieces_other (h : c ≠ a) (cs : List Char) :
    ∃ p ps, pieces a cs = p :: ps ∧ pieces a (c :: cs) = (c :: p) :: ps := by
  obtain ⟨p, ps, hp⟩ := List.exists_cons_of_ne_nil (pieces_ne_nil a cs)
  exact ⟨p, ps, hp, by simp [pieces, hp, h]⟩

theorem pieces_length (a : Char) (cs : List Char) : (pieces a cs).length = cs.count a + 1 := by
  induction cs with
  | nil => rfl
  | cons c cs ih =>
    by_cases h : c = a
    · subst h
      rw [pieces_separator, List.length_cons, ih, List.count_cons_self]
    · obtain ⟨p, ps, hp, hc⟩ := pieces_other h cs
      rw [hc, List.count_cons_of_ne h, ← ih, hp, List.length_cons, List.length_cons]

/-- What stands in front of the first separator is in the first piece. -/
theorem pieces_front {front : List Char} (h : a ∉ front) (cs : List Char) :
    ∃ p ps, pieces a cs = p :: ps ∧ pieces a (front ++ cs) = (front ++ p) :: ps := by
  induction front with
  | nil =>
    obtain ⟨p, ps, hp⟩ := List.exists_cons_of_ne_nil (pieces_ne_nil a cs)
    exact ⟨p, ps, hp, hp⟩
  | cons c front ih =>
    rw [List.mem_cons, not_or] at h
    obtain ⟨p, ps, hp, hfront⟩ := ih h.2
    obtain ⟨q, qs, hq, hc⟩ := pieces_other (Ne.symm h.1) (front ++ cs)
    obtain ⟨rfl, rfl⟩ : front ++ p = q ∧ ps = qs := by simpa [hfront] using hq
    exact ⟨p, ps, hp, hc⟩

theorem pieces_cut {front : List Char} (h : a ∉ front) (cs : List Char) :
    pieces a (front ++ a :: cs) = front :: pieces a cs := by
  obtain ⟨p, ps, hp, hfront⟩ := pieces_front h (a :: cs)
  obtain ⟨rfl, rfl⟩ : [] = p ∧ pieces a cs = ps := by simpa [pieces_separator] using hp
  rw [hfront, List.append_nil]

end

/-- The text since the last newline. -/
def lastLine (cs : List Char) : List Char := (cs.reverse.takeWhile (· ≠ '\n')).reverse

theorem lastLine_unbroken {cs : List Char} (h : '\n' ∉ cs) : lastLine cs = cs := by
  rw [lastLine, List.takeWhile_eq_self_iff.mpr, List.reverse_reverse]
  intro c hc
  have hne : c ≠ '\n' := by
    rintro rfl
    exact h (List.mem_reverse.mp hc)
  simpa using hne

theorem lastLine_cut (cs ds : List Char) : lastLine (cs ++ '\n' :: ds) = lastLine ds := by
  have hstop : ('\n' :: cs.reverse).takeWhile (· ≠ '\n') = [] := by simp
  rw [lastLine, List.reverse_append, List.reverse_cons, List.append_assoc, List.singleton_append,
    List.takeWhile_append, hstop]
  split
  · next hall =>
    have hwhole := (List.takeWhile_prefix (l := ds.reverse) (· ≠ '\n')).eq_of_length hall
    rw [lastLine, hwhole, List.append_nil]
  · rfl

theorem lastLine_append (cs : List Char) {ds : List Char} (h : '\n' ∉ ds) :
    lastLine (cs ++ ds) = lastLine cs ++ ds := by
  have hall : ∀ c ∈ ds.reverse, decide (c ≠ '\n') = true := by
    intro c hc
    have hne : c ≠ '\n' := by
      rintro rfl
      exact h (List.mem_reverse.mp hc)
    simpa using hne
  rw [lastLine, List.reverse_append, List.takeWhile_append_of_pos hall, List.reverse_append,
    List.reverse_reverse, lastLine]

/-- The characters that start before a byte of the text. -/
def started : Nat → List Char → List Char
  | _, [] => []
  | offset, c :: cs => if offset = 0 then [] else c :: started (offset - c.utf8Size) cs

theorem units_started (offset : Nat) (cs : List Char) :
    unitsBefore offset cs = unitsSize (started offset cs) := by
  induction cs generalizing offset with
  | nil => rfl
  | cons c cs ih =>
    rw [unitsBefore, started]
    split
    · rfl
    · rw [ih, unitsSize]

@[simp]
theorem started_zero (cs : List Char) : started 0 cs = [] := by
  cases cs <;> rfl

theorem started_leads (offset : Nat) (cs : List Char) : started offset cs <+: cs := by
  induction cs generalizing offset with
  | nil => exact List.nil_prefix
  | cons c cs ih =>
    rw [started]
    split
    · exact List.nil_prefix
    · exact List.cons_prefix_cons.mpr ⟨rfl, ih _⟩

theorem started_append (cs ds : List Char) (offset : Nat) :
    started (byteSize cs + offset) (cs ++ ds) = cs ++ started offset ds := by
  induction cs with
  | nil => rw [byteSize_nil, Nat.zero_add]; rfl
  | cons c cs ih =>
    have hpos := c.utf8Size_pos
    have hrest : c.utf8Size + byteSize cs + offset - c.utf8Size = byteSize cs + offset := by omega
    rw [List.cons_append, started, byteSize_cons, if_neg (by omega), hrest, ih]
    rfl

theorem started_place (cs ds : List Char) : started (byteSize cs) (cs ++ ds) = cs := by
  have h := started_append cs ds 0
  rwa [Nat.add_zero, started_zero, List.append_nil] at h

theorem started_front {offset : Nat} {cs : List Char} (h : offset ≤ byteSize cs)
    (ds : List Char) : started offset (cs ++ ds) = started offset cs := by
  induction cs generalizing offset with
  | nil =>
    obtain rfl : offset = 0 := by simpa using h
    rw [started_zero, started_zero]
  | cons c cs ih =>
    rw [byteSize_cons] at h
    rw [List.cons_append, started, started, ih (by omega)]

theorem positionIn_started (text : List Char) : ∀ line offset,
    positionIn line offset (lines text) =
      .ofNat (line + (started offset text).count '\n')
        (unitsSize (lastLine (started offset text))) := by
  -- on the length, as a step leaves a whole line behind
  induction hn : text.length using Nat.strong_induction_on generalizing text with
  | _ n ih =>
    intro line offset
    by_cases hmem : '\n' ∈ text
    · obtain ⟨l, rest, rfl, hl⟩ := List.eq_append_cons_of_mem hmem
      obtain ⟨p, ps, hp⟩ := List.exists_cons_of_ne_nil (pieces_ne_nil '\n' rest)
      have hlines : lines (l ++ '\n' :: rest) = l :: p :: ps := by
        rw [lines, pieces_cut hl, hp]
      by_cases hle : offset ≤ byteSize l
      · have hfirst : '\n' ∉ started offset l := fun h => hl ((started_leads _ l).mem h)
        rw [hlines, positionIn, if_pos hle, units_started, started_front hle,
          List.count_eq_zero.mpr hfirst, lastLine_unbroken hfirst]
        · rfl
        · simp
      · obtain ⟨k, rfl⟩ : ∃ k, offset = byteSize l + 1 + k :=
          ⟨offset - byteSize l - 1, by omega⟩
        have hstarted : started (byteSize l + 1 + k) (l ++ '\n' :: rest) =
            l ++ '\n' :: started k rest := by
          have hsize : 1 + k - '\n'.utf8Size = k := Nat.add_sub_cancel_left 1 k
          rw [Nat.add_assoc, started_append, started, if_neg (by omega), hsize]
        have hcount : line + (l ++ '\n' :: started k rest).count '\n' =
            line + 1 + (started k rest).count '\n' := by
          rw [List.count_append, List.count_cons_self, List.count_eq_zero.mpr hl]
          omega
        have hk : byteSize l + 1 + k - byteSize l - 1 = k := by omega
        have hrest := ih rest.length (by simp [← hn]; omega) rest rfl (line + 1) k
        rw [lines, hp] at hrest
        rw [hlines, positionIn, if_neg hle, hk, hrest, hstarted, hcount, lastLine_cut]
        simp
    · obtain ⟨p, ps, hp, hfront⟩ := pieces_front hmem []
      obtain ⟨rfl, rfl⟩ : [] = p ∧ [] = ps := by simpa [pieces] using hp
      have hfirst : '\n' ∉ started offset text := fun h => hmem ((started_leads _ text).mem h)
      rw [List.append_nil] at hfront
      rw [lines, hfront, positionIn, units_started, List.count_eq_zero.mpr hfirst,
        lastLine_unbroken hfirst]
      rfl

theorem position_started (text : List Char) (offset : Nat) :
    position text offset =
      .ofNat ((started offset text).count '\n') (unitsSize (lastLine (started offset text))) := by
  rw [position, positionIn_started, Nat.zero_add]

theorem position_place (before after : List Char) :
    position (before ++ after) (byteSize before) =
      .ofNat (before.count '\n') (unitsSize (lastLine before)) := by
  rw [position_started, started_place]

end DiagramText.Positions
