import DiagramText.Color.Printer
import DiagramText.Color.Reader
import DiagramText.Color.Value
import DiagramText.Proofs.SignedZeros

/-!
# Equal colours under two keys

Values are equal when their components are equal as numbers, and a value is
filed under its printed text. The text shows the sign of a zero, which equality
does not see. So equal values may be filed under different keys, and this
happens just when a zero is printed with its sign for one of them only. This
holds of every way to print a colour that sets shortest numbers between texts,
as long as equal colours are printed with the same texts and, up to the sign of
zero, the same numbers. The conversion of hues to red, green and blue adds no
other difference.
-/

set_option autoImplicit false

namespace DiagramText.ColorKeys
open Color SignedZeros

def crossed (a b : Component) : Bool :=
  !a.missing && !b.missing && a.value == 0 && b.value == 0 && decide (a.value ≠ b.value)

/-- The same component up to the sign of zero. -/
structure TwinComponents (a b : Component) : Prop where
  missing : a.missing = b.missing
  value : Twin a.value b.value

/-- A component as it is printed, with the text in front of it. -/
abbrev Part := String × Component

def woven (closing : String) : List Part → String
  | [] => closing
  | p :: ps => p.1 ++ p.2.text ++ woven closing ps

def TwinParts : List Part → List Part → Prop :=
  List.Forall₂ fun p q => p.1 = q.1 ∧ TwinComponents p.2 q.2

def crossings (ps qs : List Part) : Bool := (ps.zip qs).any fun x => crossed x.1.2 x.2.2

/-- A way to print colours that shows components, and nothing that equality does not see but the
signs of zeros. -/
structure Printing (print : Color → String) where
  pieces : Color → List Part
  closing : Color → String
  prints : ∀ c, print c = woven (closing c) (pieces c)
  closes : ∀ c d, (c == d) = true → closing c = closing d
  carries : ∀ c d, (c == d) = true → TwinParts (pieces c) (pieces d)

/-- A zero is printed with its sign for one of the values only. -/
def signsDiffer {print : Color → String} (p : Printing print) : ColorValue → ColorValue → Bool
  | .solid c, .solid d => crossings (p.pieces c) (p.pieces d)
  | _, _ => false

theorem same_twins {a b : Component} (h : a.same b = true) : TwinComponents a b := by
  rw [Component.same, Bool.and_eq_true, beq_iff_eq] at h
  exact ⟨h.1, equal_twins h.2⟩

theorem twin_ite {p q : Prop} [Decidable p] [Decidable q] {x x' y y' : Float32} (h : p ↔ q)
    (hx : Twin x x') (hy : Twin y y') : Twin (if p then x else y) (if q then x' else y') := by
  by_cases hp : p
  · rw [if_pos hp, if_pos (h.mp hp)]
    exact hx
  · rw [if_neg hp, if_neg (mt h.mpr hp)]
    exact hy

theorem channel_twins {h h' s s' l l' offset : Float32} (hh : Twin h h') (hs : Twin s s')
    (hl : Twin l l') (ho : offset ≠ -0) :
    Twin (hslChannel h s l offset) (hslChannel h' s' l' offset) := by
  -- of the floor nothing is known but that it is the same for the same place
  have hplace : offset + h * (1 / 30) = offset + h' * (1 / 30) :=
    add_twins ho (twin_mul hh (twin_refl _))
  have hlight : Twin (l * 0.01) (l' * 0.01) := twin_mul hl (twin_refl _)
  have hdark : Twin (1 - l * 0.01) (1 - l' * 0.01) := twin_sub (twin_refl _) hlight
  unfold hslChannel
  rw [hplace]
  exact twin_sub hlight (twin_mul (twin_mul (twin_mul hs (twin_refl _))
    (twin_ite (twin_lt hlight hdark) hlight hdark)) (twin_refl _))

structure TwinRgb (p q : Float32 × Float32 × Float32) : Prop where
  red : Twin p.1 q.1
  green : Twin p.2.1 q.2.1
  blue : Twin p.2.2 q.2.2

theorem hsl_twins {h h' s s' l l' : Float32} (hh : Twin h h') (hs : Twin s s') (hl : Twin l l') :
    TwinRgb (hslToRgb h s l) (hslToRgb h' s' l') where
  red := channel_twins hh hs hl (by decide)
  green := channel_twins hh hs hl (by decide)
  blue := channel_twins hh hs hl (by decide)

theorem hwb_twins {h h' w w' b b' : Float32} (hh : Twin h h') (hw : Twin w w') (hb : Twin b b') :
    TwinRgb (hwbToRgb h w b) (hwbToRgb h' w' b') := by
  have hwhite : Twin (w * 0.01) (w' * 0.01) := twin_mul hw (twin_refl _)
  have hblack : Twin (b * 0.01) (b' * 0.01) := twin_mul hb (twin_refl _)
  unfold hwbToRgb
  dsimp only
  generalize w * 0.01 = white at *
  generalize w' * 0.01 = white' at *
  generalize b * 0.01 = black at *
  generalize b' * 0.01 = black' at *
  have hsum := twin_add hwhite hblack
  by_cases hfull : 1 ≤ white + black
  · rw [if_pos hfull, if_pos ((twin_le (twin_refl 1) hsum).mp hfull)]
    have hgray : Twin (white / (white + black)) (white' / (white' + black')) := by
      rcases twin_values hsum with hsame | ⟨hzero, -⟩
      · rw [hsame]
        exact twin_div hwhite _
      · rcases hzero with hzero | hzero
        all_goals
          rw [hzero] at hfull
          exact absurd hfull (by decide)
    exact ⟨hgray, hgray, hgray⟩
  · rw [if_neg hfull, if_neg (mt (twin_le (twin_refl 1) hsum).mpr hfull)]
    have hpure := hsl_twins hh (twin_refl 100) (twin_refl 50)
    have hrest := twin_sub (twin_sub (twin_refl 1) hwhite) hblack
    exact ⟨twin_add hwhite (twin_mul hpure.red hrest), twin_add hwhite (twin_mul hpure.green hrest),
      twin_add hwhite (twin_mul hpure.blue hrest)⟩

structure TwinColors (c d : Color) : Prop where
  first : TwinComponents c.first d.first
  second : TwinComponents c.second d.second
  third : TwinComponents c.third d.third
  alpha : TwinComponents c.alpha d.alpha

theorem same_colors {c d : Color} (h : (c == d) = true) :
    c.space = d.space ∧ c.written = d.written ∧ TwinColors c d := by
  change c.same d = true at h
  simp only [Color.same, Bool.and_eq_true, decide_eq_true_eq] at h
  obtain ⟨⟨⟨⟨⟨hspace, hwritten⟩, hfirst⟩, hsecond⟩, hthird⟩, halpha⟩ := h
  exact ⟨hspace, hwritten, same_twins hfirst, same_twins hsecond, same_twins hthird,
    same_twins halpha⟩

theorem rgb_twins {c d : Color} {p q : Float32 × Float32 × Float32} (h : TwinColors c d)
    (hrgb : TwinRgb p q) : TwinColors (c.withRgb p) (d.withRgb q) where
  first := ⟨rfl, hrgb.red⟩
  second := ⟨rfl, hrgb.green⟩
  third := ⟨rfl, hrgb.blue⟩
  alpha := h.alpha

theorem converted_twins {c d : Color} (hspace : c.space = d.space) (h : TwinColors c d) :
    TwinColors c.toRgb d.toRgb := by
  unfold toRgb
  rw [← hspace]
  split
  · exact rgb_twins h (hsl_twins h.first.value h.second.value h.third.value)
  · exact rgb_twins h (hwb_twins h.first.value h.second.value h.third.value)
  · exact h

theorem translucent_twins {c d : Color} (h : TwinColors c d) : c.translucent = d.translucent := by
  rw [translucent, translucent, decide_eq_decide]
  exact twin_lt h.alpha.value (twin_refl 1)

/-- Two printed numbers: the same, or the two zeros. -/
inductive Prints : Bool → String → String → Prop where
  | same (s : String) : Prints false s s
  | lost : Prints true "-0" "0"
  | gained : Prints true "0" "-0"

theorem zero_texts :
    Component.text ⟨0, false⟩ = "0" ∧ Component.text ⟨-0, false⟩ = "-0" := by decide +kernel

theorem zeros_crossed :
    crossed ⟨0, false⟩ ⟨-0, false⟩ = true ∧ crossed ⟨-0, false⟩ ⟨0, false⟩ = true := by decide

theorem crossed_self (a : Component) : crossed a a = false := by
  simp [crossed]

theorem twins_print {a b : Component} (h : TwinComponents a b) :
    Prints (crossed a b) a.text b.text := by
  obtain ⟨hmissing, hvalue⟩ := h
  obtain ⟨x, m⟩ := a
  obtain ⟨y, n⟩ := b
  obtain rfl : m = n := hmissing
  cases m with
  | true =>
    have hnot : crossed ⟨x, true⟩ ⟨y, true⟩ = false := rfl
    rw [hnot]
    exact .same "none"
  | false =>
    rcases twin_values hvalue with hsame | ⟨hx, hy⟩
    · obtain rfl : x = y := hsame
      rw [crossed_self]
      exact .same _
    · obtain ⟨hplus, hminus⟩ := zero_texts
      rcases hx with rfl | rfl <;> rcases hy with rfl | rfl
      · rw [crossed_self]
        exact .same _
      · rw [zeros_crossed.1, hplus, hminus]
        exact .gained
      · rw [zeros_crossed.2, hplus, hminus]
        exact .lost
      · rw [crossed_self]
        exact .same _

theorem prints_append {b : Bool} {s t r r' : String} (h : Prints b s t) :
    s ++ r = t ++ r' ↔ b = false ∧ r = r' := by
  cases h with
  | same s => simp
  | lost =>
    refine iff_of_false (fun htexts => ?_) (by simp)
    have hchars := congrArg String.toList htexts
    simp at hchars
  | gained =>
    refine iff_of_false (fun htexts => ?_) (by simp)
    have hchars := congrArg String.toList htexts
    simp at hchars

theorem woven_keys {ps qs : List Part} (h : TwinParts ps qs) (closing : String) :
    woven closing ps = woven closing qs ↔ crossings ps qs = false := by
  induction h with
  | nil => simp [crossings]
  | @cons p q ps qs hpq _ ih =>
    obtain ⟨htext, hcomponents⟩ := hpq
    have hrest : crossings (p :: ps) (q :: qs) = (crossed p.2 q.2 || crossings ps qs) := rfl
    rw [woven, woven, htext, String.append_assoc, String.append_assoc, String.append_right_inj,
      prints_append (twins_print hcomponents), ih, hrest, Bool.or_eq_false_iff]

theorem scaled_twins {a b : Component} (h : TwinComponents a b) (factor : Float32) :
    TwinComponents (a.scaled factor) (b.scaled factor) :=
  ⟨h.missing, twin_mul h.value (twin_refl factor)⟩

def alphaPieces (slash : String) (c : Color) : List Part :=
  if c.translucent then [(slash, c.alpha)] else []

def bytePieces (c : Color) : List Part :=
  (if c.translucent then "rgba(" else "rgb(", c.first.scaled 255) ::
    (", ", c.second.scaled 255) :: (", ", c.third.scaled 255) :: alphaPieces ", " c

def numberPieces (opening : String) (c : Color) : List Part :=
  (opening, c.first) :: (" ", c.second) :: (" ", c.third) :: alphaPieces " / " c

def displayPieces (c : Color) : List Part :=
  match c.written with
  | .named _ => []
  | .own =>
    match c.space with
    | .srgb | .hsl | .hwb => bytePieces c.toRgb
    | s => numberPieces (s.name ++ "(") c
  | .general => numberPieces ("color(" ++ c.space.name ++ " ") c

def displayClosing (c : Color) : String :=
  match c.written with
  | .named name => name
  | .own | .general => ")"

theorem bytes_woven (c : Color) : displayBytes c = woven ")" (bytePieces c) := by
  unfold displayBytes bytePieces alphaPieces
  cases c.translucent <;> simp [woven, String.append_assoc]

theorem numbers_woven (opening : String) (c : Color) :
    displayNumbers opening c = woven ")" (numberPieces opening c) := by
  unfold displayNumbers numberPieces alphaPieces
  cases c.translucent <;> simp [woven, String.append_assoc]

theorem display_woven (c : Color) : c.display = woven (displayClosing c) (displayPieces c) := by
  unfold Color.display displayClosing displayPieces
  cases c.written with
  | named name => rfl
  | general => exact numbers_woven _ c
  | own =>
    cases c.space with
    | srgb => exact bytes_woven _
    | hsl => exact bytes_woven _
    | hwb => exact bytes_woven _
    | _ => exact numbers_woven _ c

theorem alpha_twins {c d : Color} (h : TwinColors c d) (slash : String) :
    TwinParts (alphaPieces slash c) (alphaPieces slash d) := by
  unfold alphaPieces
  rw [translucent_twins h]
  split
  · exact .cons ⟨rfl, h.alpha⟩ .nil
  · exact .nil

theorem bytes_twins {c d : Color} (h : TwinColors c d) :
    TwinParts (bytePieces c) (bytePieces d) := by
  unfold bytePieces
  rw [translucent_twins h]
  exact .cons ⟨rfl, scaled_twins h.first 255⟩ (.cons ⟨rfl, scaled_twins h.second 255⟩
    (.cons ⟨rfl, scaled_twins h.third 255⟩ (alpha_twins h ", ")))

theorem numbers_twins {c d : Color} (h : TwinColors c d) (opening : String) :
    TwinParts (numberPieces opening c) (numberPieces opening d) :=
  .cons ⟨rfl, h.first⟩ (.cons ⟨rfl, h.second⟩ (.cons ⟨rfl, h.third⟩ (alpha_twins h " / ")))

theorem display_twins {c d : Color} (h : (c == d) = true) :
    TwinParts (displayPieces c) (displayPieces d) := by
  obtain ⟨hspace, hwritten, htwins⟩ := same_colors h
  have hrgb := bytes_twins (converted_twins hspace htwins)
  unfold displayPieces
  rw [← hwritten, ← hspace]
  cases c.written with
  | named name => exact .nil
  | general => exact numbers_twins htwins _
  | own =>
    cases c.space with
    | srgb => exact hrgb
    | hsl => exact hrgb
    | hwb => exact hrgb
    | _ => exact numbers_twins htwins _

def displayed : Printing Color.display where
  pieces := displayPieces
  closing := displayClosing
  prints := display_woven
  closes := by
    intro c d h
    obtain ⟨-, hwritten, -⟩ := same_colors h
    rw [displayClosing, displayClosing, hwritten]
  carries := fun _ _ => display_twins

/-- Equal values are filed under one key just when no zero is printed with its sign for one of them
only. -/
theorem equal_filed {print : Color → String} (p : Printing print) {u v : ColorValue}
    (h : (u == v) = true) : u.key print = v.key print ↔ signsDiffer p u v = false := by
  cases u with
  | solid c =>
    cases v with
    | solid d =>
      simp only [ColorValue.key, signsDiffer, Prod.mk.injEq, true_and]
      rw [p.prints, p.prints, p.closes c d h]
      exact woven_keys (p.carries c d h) _
    | gradient b => exact absurd h Bool.false_ne_true
  | gradient a =>
    cases v with
    | solid d => exact absurd h Bool.false_ne_true
    | gradient b =>
      obtain rfl : a = b := beq_iff_eq.mp h
      simp [signsDiffer]

theorem black_filed : ∃ u v, ColorValue.parse Color.read "#000" = .ok u ∧
    ColorValue.parse Color.read "rgb(0 0 0)" = .ok v ∧ (u == v) = true ∧
    u.key Color.display = v.key Color.display := by
  have hboth : (match ColorValue.parse Color.read "#000",
        ColorValue.parse Color.read "rgb(0 0 0)" with
      | .ok u, .ok v => u == v && !signsDiffer displayed u v
      | _, _ => false) = true := by decide +kernel
  split at hboth
  · next u v hu hv =>
    rw [Bool.and_eq_true, Bool.not_eq_true'] at hboth
    exact ⟨u, v, hu, hv, hboth.1, (equal_filed displayed hboth.1).mpr hboth.2⟩
  · simp at hboth

theorem red_zero_apart : ∃ u v, ColorValue.parse Color.read "rgb(0 0 0)" = .ok u ∧
    ColorValue.parse Color.read "rgb(-0 0 0)" = .ok v ∧ (u == v) = true ∧
    u.key Color.display ≠ v.key Color.display := by
  have hboth : (match ColorValue.parse Color.read "rgb(0 0 0)",
        ColorValue.parse Color.read "rgb(-0 0 0)" with
      | .ok u, .ok v => u == v && u.key Color.display != v.key Color.display
      | _, _ => false) = true := by decide +kernel
  split at hboth
  · next u v hu hv =>
    rw [Bool.and_eq_true, bne_iff_ne] at hboth
    exact ⟨u, v, hu, hv, hboth.1, hboth.2⟩
  · simp at hboth

end DiagramText.ColorKeys
