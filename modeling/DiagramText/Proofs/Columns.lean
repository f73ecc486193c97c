import DiagramText.Proofs.Positions
import Mathlib.Algebra.Group.Nat.Defs

/-!
# Offsets and columns

The index goes from offsets to columns and back. Between two characters it
loses nothing; a column inside a surrogate pair goes to the start of its
character, and only positions outside the text are refused. An offset inside
a character is at the column behind that character, as the characters that
start before it are counted.
-/

set_option autoImplicit false

namespace DiagramText.Columns
open Text LineIndex Positions

/-- The text has the line behind so many newlines, with so much text in front of it. -/
structure LineAt (text : List Char) (n : Nat) (before line : List Char) : Prop where
  within : ∃ after, text = before ++ line ++ after ∧ ∀ c ∈ after.head?, c = '\n'
  opens : ∀ c ∈ before.getLast?, c = '\n'
  unbroken : '\n' ∉ line
  number : before.count '\n' = n

/-- At or before a position, line by line. -/
def UpTo (p q : Position) : Prop :=
  p.line < q.line ∨ p.line = q.line ∧ p.column ≤ q.column

theorem unit_le_byte (c : Char) : unitSize c ≤ c.utf8Size := by
  have hpos := c.utf8Size_pos
  rw [unitSize]
  split
  · exact hpos
  · next h =>
    have hval : ¬c.val.toNat < 0x10000 := h
    simp only [Char.utf8Size, UInt32.le_iff_toNat_le]
    split_ifs with h1 h2 h3
    · exact absurd (Nat.lt_of_le_of_lt h1 (by decide)) hval
    · exact Nat.le_refl 2
    · exact Nat.le_succ 2
    · decide

theorem units_le_bytes (cs : List Char) : unitsSize cs ≤ byteSize cs := by
  induction cs with
  | nil => rfl
  | cons c cs ih => exact Nat.add_le_add (unit_le_byte c) ih

theorem length_le_bytes (cs : List Char) : cs.length ≤ byteSize cs := by
  induction cs with
  | nil => rfl
  | cons c cs ih =>
    have hpos := c.utf8Size_pos
    rw [List.length_cons, byteSize_cons]
    omega

theorem started_whole {cs : List Char} {offset : Nat} (h : byteSize cs ≤ offset) :
    started offset cs = cs := by
  obtain ⟨k, rfl⟩ := Nat.exists_eq_add_of_le h
  have happend := started_append cs [] k
  rwa [List.append_nil, show started k [] = [] from rfl, List.append_nil] at happend

theorem started_grows {o o' : Nat} (h : o ≤ o') (cs : List Char) :
    started o cs <+: started o' cs := by
  induction cs generalizing o o' with
  | nil => exact List.nil_prefix
  | cons c cs ih =>
    rw [started, started]
    by_cases ho : o = 0
    · rw [if_pos ho]
      exact List.nil_prefix
    · rw [if_neg ho, if_neg (by omega)]
      exact List.cons_prefix_cons.mpr ⟨rfl, ih (by omega)⟩

theorem started_inside {c : Char} {k : Nat} (h : 0 < k) (hk : k ≤ c.utf8Size)
    (before after : List Char) :
    started (byteSize before + k) (before ++ c :: after) = before ++ [c] := by
  rw [started_append, started, if_neg (by omega), Nat.sub_eq_zero_of_le hk, started_zero]

theorem started_within (text : List Char) (offset : Nat) :
    ∃ after, text = started offset text ++ after :=
  (started_leads offset text).imp fun _ h => h.symm

/-- What stands in front of the last line. -/
def front (cs : List Char) : List Char := (cs.reverse.dropWhile (· ≠ '\n')).reverse

theorem front_lastLine (cs : List Char) : front cs ++ lastLine cs = cs := by
  rw [front, lastLine, ← List.reverse_append, List.takeWhile_append_dropWhile, List.reverse_reverse]

theorem lastLine_clear (cs : List Char) : '\n' ∉ lastLine cs := by
  intro h
  have := List.mem_takeWhile_imp (List.mem_reverse.mp h)
  simp at this

theorem front_opens (cs : List Char) : ∀ c ∈ (front cs).getLast?, c = '\n' := by
  intro c hc
  rw [front, List.getLast?_reverse] at hc
  have := List.head?_dropWhile_not (· ≠ '\n') cs.reverse
  simp_all

theorem line_at_place (before after : List Char) :
    LineAt (before ++ after) (before.count '\n') (front before)
      (lastLine before ++ after.takeWhile (· ≠ '\n')) where
  within := by
    refine ⟨after.dropWhile (· ≠ '\n'), ?_, ?_⟩
    · rw [← List.append_assoc, front_lastLine, List.append_assoc, List.takeWhile_append_dropWhile]
    · intro c hc
      have := List.head?_dropWhile_not (· ≠ '\n') after
      simp_all
  opens := front_opens before
  unbroken := by
    intro h
    rcases List.mem_append.mp h with h | h
    · exact lastLine_clear before h
    · have := List.mem_takeWhile_imp h
      simp at this
  number := by
    have hcount := congrArg (List.count '\n') (front_lastLine before)
    rwa [List.count_append, List.count_eq_zero.mpr (lastLine_clear before), Nat.add_zero] at hcount

theorem prefix_count {text : List Char} {n : Nat} (h : n ≤ text.count '\n') :
    ∃ before after, text = before ++ after ∧ before.count '\n' = n := by
  induction text generalizing n with
  | nil => exact ⟨[], [], rfl, (Nat.le_zero.mp h).symm⟩
  | cons c text ih =>
    cases n with
    | zero => exact ⟨[], c :: text, rfl, rfl⟩
    | succ n =>
      by_cases hc : c = '\n'
      · subst hc
        rw [List.count_cons_self] at h
        obtain ⟨before, after, rfl, hcount⟩ := ih (Nat.le_of_succ_le_succ h)
        exact ⟨'\n' :: before, after, rfl, by rw [List.count_cons_self, hcount]⟩
      · rw [List.count_cons_of_ne hc] at h
        obtain ⟨before, after, rfl, hcount⟩ := ih h
        exact ⟨c :: before, after, rfl, by rw [List.count_cons_of_ne hc, hcount]⟩

theorem line_found {text : List Char} {n : Nat} (h : n < lineCount text) :
    ∃ before line, LineAt text n before line := by
  rw [lineCount, lines, pieces_length] at h
  obtain ⟨before, after, rfl, rfl⟩ := prefix_count (Nat.le_of_lt_succ h)
  exact ⟨_, _, line_at_place before after⟩

theorem line_front {text before line cs ds : List Char} {n : Nat}
    (h : LineAt text n before line) (hline : line = cs ++ ds) :
    (before ++ cs).count '\n' = n ∧ lastLine (before ++ cs) = cs := by
  have hclear : '\n' ∉ cs := fun hc => h.unbroken (by simp [hline, hc])
  constructor
  · rw [List.count_append, h.number, List.count_eq_zero.mpr hclear, Nat.add_zero]
  · have hempty : lastLine before = [] := by
      cases hlast : before.getLast? with
      | none =>
        rw [List.getLast?_eq_none_iff] at hlast
        rw [hlast]
        rfl
      | some c =>
        obtain ⟨cs, rfl⟩ := List.getLast?_eq_some_iff.mp hlast
        obtain rfl := h.opens c hlast
        exact lastLine_cut cs []
    rw [lastLine_append before hclear, hempty, List.nil_append]

theorem byte_none {column : Nat} {line : List Char} :
    byteOfColumn? column line = none ↔ unitsSize line < column := by
  induction line generalizing column with
  | nil => simp [byteOfColumn?, unitsSize, Nat.pos_iff_ne_zero]
  | cons c cs ih =>
    rw [byteOfColumn?, unitsSize]
    split
    · simp
      omega
    · rw [Option.map_eq_none_iff, ih]
      omega

theorem byte_some {column o : Nat} {line : List Char} (h : byteOfColumn? column line = some o) :
    ∃ cs ds, line = cs ++ ds ∧ o = byteSize cs ∧ (column = unitsSize cs ∨
      column = unitsSize cs + 1 ∧ ∃ c ∈ ds.head?, unitSize c = 2) := by
  induction line generalizing column o with
  | nil =>
    obtain ⟨rfl, rfl⟩ : column = 0 ∧ 0 = o := by simpa [byteOfColumn?] using h
    exact ⟨[], [], rfl, rfl, .inl rfl⟩
  | cons c line ih =>
    rw [byteOfColumn?] at h
    split at h
    · next hlt =>
      obtain rfl : 0 = o := by simpa using h
      refine ⟨[], c :: line, rfl, rfl, ?_⟩
      have hcases : unitSize c = 1 ∨ unitSize c = 2 := by
        rw [unitSize]
        split <;> simp
      rcases hcases with hc | hc
      · exact .inl (by simp only [unitsSize]; omega)
      · rcases Nat.lt_succ_iff_lt_or_eq.mp (hc ▸ hlt) with hzero | hone
        · exact .inl (by simp only [unitsSize]; omega)
        · exact .inr ⟨hone, c, rfl, hc⟩
    · next hge =>
      obtain ⟨o, ho, rfl⟩ := Option.map_eq_some_iff.mp h
      obtain ⟨cs, ds, rfl, rfl, hcolumn⟩ := ih ho
      refine ⟨c :: cs, ds, rfl, rfl, hcolumn.imp ?_ (And.imp_left ?_)⟩
      · rw [unitsSize]
        omega
      · rw [unitsSize]
        omega

theorem byte_place (cs ds : List Char) :
    byteOfColumn? (unitsSize cs) (cs ++ ds) = some (byteSize cs) := by
  induction cs with
  | nil =>
    cases ds with
    | nil => rfl
    | cons d ds =>
      have hpos : 0 < unitSize d := by
        rw [unitSize]
        split <;> decide
      rw [List.nil_append, unitsSize, byteOfColumn?, if_pos hpos]
      rfl
  | cons c cs ih =>
    rw [List.cons_append, unitsSize, byteOfColumn?, if_neg (by omega), Nat.add_sub_cancel_left, ih]
    rfl

theorem offset_beyond {ls : List (List Char)} {n : Nat} (h : ls.length ≤ n) (column : Nat) :
    offsetIn? n column ls = none := by
  induction ls generalizing n with
  | nil => rw [offsetIn?]
  | cons l ls ih =>
    cases n with
    | zero => simp at h
    | succ n => rw [offsetIn?, ih (Nat.le_of_succ_le_succ h), Option.map_none]

theorem offset_line {text before line : List Char} {n : Nat} (h : LineAt text n before line)
    (column : Nat) :
    offsetIn? n column (lines text) = (byteOfColumn? column line).map (byteSize before + ·) := by
  -- on the length of the text in front, which shrinks by a whole line
  induction hn : before.length using Nat.strong_induction_on generalizing text before n with
  | _ k ih =>
    obtain ⟨after, rfl, hafter⟩ := h.within
    by_cases hmem : '\n' ∈ before
    · obtain ⟨l, rest, rfl, hl⟩ := List.eq_append_cons_of_mem hmem
      have hnumber : n = rest.count '\n' + 1 := by
        rw [← h.number, List.count_append, List.count_cons_self, List.count_eq_zero.mpr hl]
        omega
      have hrest : LineAt (rest ++ line ++ after) (rest.count '\n') rest line := by
        refine ⟨⟨after, rfl, hafter⟩, fun c hc => h.opens c ?_, h.unbroken, rfl⟩
        rw [Option.mem_def] at hc ⊢
        simp [List.getLast?_append, List.getLast?_cons, hc]
      have hlines : lines (l ++ '\n' :: rest ++ line ++ after) =
          l :: lines (rest ++ line ++ after) := by
        rw [lines, List.append_assoc, List.append_assoc, List.cons_append, pieces_cut hl,
          List.append_assoc]
        rfl
      have hsize : byteSize (l ++ '\n' :: rest) = byteSize l + 1 + byteSize rest := by
        rw [byteSize_append, byteSize_cons, Nat.add_assoc]
        rfl
      have hlength : rest.length < k := by simp [← hn]; omega
      rw [hlines, hnumber, offsetIn?, ih _ hlength hrest rfl, Option.map_map, hsize]
      congr 1
      funext o
      exact (Nat.add_assoc _ _ _).symm
    · -- a line in front would end in a newline
      obtain rfl : before = [] := by
        cases hlast : before.getLast? with
        | none => exact List.getLast?_eq_none_iff.mp hlast
        | some c =>
          obtain rfl := h.opens c hlast
          exact absurd (List.mem_of_getLast? hlast) hmem
      obtain rfl : 0 = n := h.number
      have hlines : ∃ ls, lines ([] ++ line ++ after) = line :: ls := by
        rw [lines, List.nil_append]
        cases after with
        | nil =>
          obtain ⟨p, ps, hp, hfront⟩ := pieces_front h.unbroken []
          obtain ⟨rfl, rfl⟩ : [] = p ∧ [] = ps := by simpa [pieces] using hp
          exact ⟨[], by rw [hfront, List.append_nil]⟩
        | cons c after =>
          obtain rfl := hafter c rfl
          exact ⟨_, pieces_cut h.unbroken after⟩
      obtain ⟨ls, hls⟩ := hlines
      rw [hls, offsetIn?, byteSize_nil]
      simp

theorem started_bounded (text : List Char) (offset : Nat) :
    (started offset text).count '\n' ≤ byteSize text ∧
      unitsSize (lastLine (started offset text)) ≤ byteSize text := by
  obtain ⟨after, htext⟩ := started_within text offset
  have hsize := congrArg byteSize htext
  have hline := congrArg byteSize (front_lastLine (started offset text))
  have hcount := (List.count_le_length (a := '\n')).trans (length_le_bytes (started offset text))
  have hunits := units_le_bytes (lastLine (started offset text))
  rw [byteSize_append] at hsize hline
  omega

theorem position_exact {text : List Char} (size : byteSize text < 2 ^ 32) (offset : Nat) :
    (position text offset).line.toNat = (started offset text).count '\n' ∧
      (position text offset).column.toNat = unitsSize (lastLine (started offset text)) := by
  obtain ⟨hline, hcolumn⟩ := started_bounded text offset
  rw [position_started]
  exact ⟨UInt32.toNat_ofNat_of_lt' (hline.trans_lt size),
    UInt32.toNat_ofNat_of_lt' (hcolumn.trans_lt size)⟩

theorem prefix_up_to {text : List Char} (size : byteSize text < 2 ^ 32) {o o' : Nat}
    (h : started o text <+: started o' text) : UpTo (position text o) (position text o') := by
  obtain ⟨hline, hcolumn⟩ := position_exact size o
  obtain ⟨hline', hcolumn'⟩ := position_exact size o'
  obtain ⟨d, hd⟩ := h
  rw [← hd] at hline' hcolumn'
  by_cases hbreak : '\n' ∈ d
  · have hpos := List.count_pos_iff.mpr hbreak
    refine .inl (UInt32.lt_iff_toNat_lt.mpr ?_)
    rw [hline, hline', List.count_append]
    omega
  · refine .inr ⟨UInt32.toNat_inj.mp ?_, UInt32.le_iff_toNat_le.mpr ?_⟩
    · rw [hline, hline', List.count_append, List.count_eq_zero.mpr hbreak, Nat.add_zero]
    · rw [hcolumn, hcolumn', lastLine_append _ hbreak, unitsSize_append]
      exact Nat.le_add_right _ _

theorem units_divided {text : List Char} (size : byteSize text < 2 ^ 32) (offset : Nat) :
    ∃ before line, LineAt text (position text offset).line.toNat before line ∧
      unitOffset text offset = unitsSize before + (position text offset).column.toNat := by
  obtain ⟨after, htext⟩ := started_within text offset
  obtain ⟨hnumber, hcolumn⟩ := position_exact size offset
  have hline := line_at_place (started offset text) after
  have hplace := congrArg unitsSize (front_lastLine (started offset text))
  rw [← htext] at hline
  rw [unitsSize_append] at hplace
  refine ⟨_, _, by rw [hnumber]; exact hline, ?_⟩
  rw [unitOffset, units_started, hcolumn, hplace]

theorem offset_place {before after : List Char} (size : byteSize (before ++ after) < 2 ^ 32) :
    offset? (before ++ after) (position (before ++ after) (byteSize before)) =
      some (byteSize before) := by
  have hplace := congrArg byteSize (front_lastLine before)
  obtain ⟨hnumber, hcolumn⟩ := position_exact size (byteSize before)
  rw [byteSize_append] at hplace
  rw [started_place] at hnumber hcolumn
  rw [offset?, hnumber, hcolumn, offset_line (line_at_place before after), byte_place,
    Option.map_some, hplace]

theorem offset_refused {text : List Char} {p : Position} :
    offset? text p = none ↔ lineCount text ≤ p.line.toNat ∨
      ∃ before line, LineAt text p.line.toNat before line ∧ unitsSize line < p.column.toNat := by
  constructor
  · intro hnone
    by_cases hp : p.line.toNat < lineCount text
    · obtain ⟨before, line, hline⟩ := line_found hp
      rw [offset?, offset_line hline, Option.map_eq_none_iff, byte_none] at hnone
      exact .inr ⟨before, line, hline, hnone⟩
    · exact .inl (Nat.le_of_not_lt hp)
  · rintro (hp | ⟨before, line, hline, hcolumn⟩)
    · exact offset_beyond hp p.column.toNat
    · rw [offset?, offset_line hline, Option.map_eq_none_iff, byte_none]
      exact hcolumn

theorem offset_found {text : List Char} {p : Position} {o : Nat} (h : offset? text p = some o) :
    ∃ before cs ds, LineAt text p.line.toNat before (cs ++ ds) ∧ o = byteSize (before ++ cs) ∧
      (p.column.toNat = unitsSize cs ∧ position text o = p ∨ (∃ c ∈ ds.head?, unitSize c = 2) ∧
        p.column.toNat = unitsSize cs + 1 ∧ position text o = ⟨p.line, p.column - 1⟩) := by
  have hp : p.line.toNat < lineCount text := by
    by_contra hp
    rw [offset_refused.mpr (.inl (Nat.le_of_not_lt hp))] at h
    simp at h
  obtain ⟨before, line, hline⟩ := line_found hp
  rw [offset?, offset_line hline] at h
  obtain ⟨b, hb, rfl⟩ := Option.map_eq_some_iff.mp h
  obtain ⟨cs, ds, rfl, rfl, hcolumn⟩ := byte_some hb
  obtain ⟨hcount, hlast⟩ := line_front hline rfl
  have hposition : position text (byteSize (before ++ cs)) =
      ⟨p.line, UInt32.ofNat (unitsSize cs)⟩ := by
    obtain ⟨after, rfl, -⟩ := hline.within
    rw [← List.append_assoc, List.append_assoc, position_place, hcount, hlast, Position.ofNat,
      UInt32.ofNat_toNat]
  rw [← byteSize_append]
  refine ⟨before, cs, ds, hline, rfl, ?_⟩
  rw [hposition]
  rcases hcolumn with hcolumn | ⟨hcolumn, hpair⟩
  · exact .inl ⟨hcolumn, by rw [← hcolumn, UInt32.ofNat_toNat]⟩
  · refine .inr ⟨hpair, hcolumn, ?_⟩
    have hback : p.column = UInt32.ofNat (unitsSize cs) + 1 := by
      rw [← p.column.ofNat_toNat, hcolumn, UInt32.ofNat_add]
      rfl
    rw [hback, UInt32.add_sub_cancel]

/-- How offsets and positions of a text correspond. -/
structure Indexed (text : List Char) : Prop where
  fits : ∀ offset, (position text offset).line.toNat = (started offset text).count '\n' ∧
    (position text offset).column.toNat = unitsSize (lastLine (started offset text))
  returns : ∀ before after, text = before ++ after →
    offset? text (position text (byteSize before)) = some (byteSize before)
  refused : ∀ p, offset? text p = none ↔ lineCount text ≤ p.line.toNat ∨
    ∃ before line, LineAt text p.line.toNat before line ∧ unitsSize line < p.column.toNat
  found : ∀ p o, offset? text p = some o → ∃ before cs ds,
    LineAt text p.line.toNat before (cs ++ ds) ∧ o = byteSize (before ++ cs) ∧
      (p.column.toNat = unitsSize cs ∧ position text o = p ∨ (∃ c ∈ ds.head?, unitSize c = 2) ∧
        p.column.toNat = unitsSize cs + 1 ∧ position text o = ⟨p.line, p.column - 1⟩)
  monotone : ∀ o o', o ≤ o' → UpTo (position text o) (position text o')
  past : ∀ o, byteSize text ≤ o → position text o = position text (byteSize text)
  units : ∀ o, ∃ before line, LineAt text (position text o).line.toNat before line ∧
    unitOffset text o = unitsSize before + (position text o).column.toNat

theorem index_indexed (text : List Char) (size : byteSize text < 2 ^ 32) : Indexed text := by
  constructor
  · exact position_exact size
  · rintro before after rfl
    exact offset_place size
  · exact fun p => offset_refused
  · exact fun p o => offset_found
  · exact fun o o' h => prefix_up_to size (started_grows h text)
  · intro o h
    rw [position_started, position_started, started_whole h, started_whole (Nat.le_refl _)]
  · exact units_divided size

theorem index_indexed_astral : byteSize ['a', '😀', '\n', '数', '\n'] < 2 ^ 32 ∧
    Indexed ['a', '😀', '\n', '数', '\n'] := by
  have hsize : byteSize ['a', '😀', '\n', '数', '\n'] < 2 ^ 32 := by decide
  exact ⟨hsize, index_indexed _ hsize⟩

section
variable {c : Char} {k : Nat}

theorem inside_unbroken (inside : 0 < k) (short : k < c.utf8Size) : '\n' ∉ [c] := by
  intro h
  obtain rfl := List.mem_singleton.mp h
  have : '\n'.utf8Size = 1 := rfl
  omega

theorem inside_units (inside : 0 < k) (short : k < c.utf8Size) (before after : List Char) :
    unitsSize (lastLine (started (byteSize before + k) (before ++ c :: after))) =
      unitsSize (lastLine before) + unitSize c := by
  rw [started_inside inside short.le, lastLine_append before (inside_unbroken inside short),
    unitsSize_append]
  rfl

/-- The position moves behind a character with its second byte. -/
theorem inside_counted (inside : 0 < k) (short : k < c.utf8Size) (before after : List Char) :
    position (before ++ c :: after) (byteSize before + k) =
        position (before ++ c :: after) (byteSize before + c.utf8Size) ∧
      position (before ++ c :: after) (byteSize before + k) =
        ⟨(position (before ++ c :: after) (byteSize before)).line,
          (position (before ++ c :: after) (byteSize before)).column + .ofNat (unitSize c)⟩ ∧
      unitOffset (before ++ c :: after) (byteSize before + k) =
        unitOffset (before ++ c :: after) (byteSize before) + unitSize c ∧
      (byteSize (before ++ c :: after) < 2 ^ 32 →
        (position (before ++ c :: after) (byteSize before + k)).column.toNat =
          (position (before ++ c :: after) (byteSize before)).column.toNat + unitSize c) := by
  have hcount : (before ++ [c]).count '\n' = before.count '\n' := by
    rw [List.count_append, List.count_eq_zero.mpr (inside_unbroken inside short), Nat.add_zero]
  have hbehind := started_inside (k := c.utf8Size) (by omega) (Nat.le_refl _) before after
  have hinside := started_inside inside short.le before after
  have hunits := inside_units inside short before after
  refine ⟨?_, ?_, ?_, fun size => ?_⟩
  · rw [position_started, position_started, hinside, hbehind]
  · -- cutting off to 32 bits goes with the sum
    rw [position_place, position_started, hunits, hinside, hcount]
    exact congrArg (Position.mk _) (UInt32.ofNat_add _ _)
  · rw [unitOffset, unitOffset, units_started, units_started, hinside, started_place,
      unitsSize_append]
    rfl
  · rw [(position_exact size _).2, (position_exact size _).2, hunits, started_place]

end

theorem inside_counted_ideograph : 0 < 2 ∧ 2 < '数'.utf8Size ∧
    position ['a', '数'] 3 = ⟨0, 2⟩ ∧ position ['a', '数'] 1 = ⟨0, 1⟩ := by
  have hshort : 2 < '数'.utf8Size := by decide
  obtain ⟨-, hposition, -⟩ := inside_counted Nat.two_pos hshort ['a'] []
  exact ⟨Nat.two_pos, hshort, hposition, by decide⟩

theorem inside_moved : ¬∀ (before after : List Char) (c : Char) (k : Nat), k < c.utf8Size →
    position (before ++ c :: after) (byteSize before + k) =
      position (before ++ c :: after) (byteSize before) ∧
    unitOffset (before ++ c :: after) (byteSize before + k) =
      unitOffset (before ++ c :: after) (byteSize before) := by
  intro h
  have hmoved := h [] [] '数' 1 (by decide)
  revert hmoved
  decide

end DiagramText.Columns
