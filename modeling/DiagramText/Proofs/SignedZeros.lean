import Mathlib

/-!
# Zeros with a sign

A number of single precision is given by its bits. Equal numbers have the same
bits, but for the two zeros: they are equal, and their signs differ. Arithmetic
on numbers that are the same up to the sign of zero gives numbers that are again
the same up to the sign of zero, and an order does not see it. Only a division
by zero tells the zeros apart.
-/

set_option autoImplicit false

namespace DiagramText.SignedZeros
open Float.Model (Format UnpackedFloat)
open Float.Model.UnpackedFloat

/-- The number that the bits stand for. -/
def number (x : Float32) : UnpackedFloat := x.toModel.unpack

theorem sign_again (b : BitVec 1) : (Sign.ofBitVec b).toBitVec = b := by
  revert b
  decide

theorem components_again (b : BitVec 32) :
    packComponents .binary32 (Sign.ofBitVec (@unpackSign .binary32 b))
      (@unpackExponent .binary32 b) (@unpackMantissa .binary32 b) = b := by
  simp only [packComponents, sign_again, unpackSign, unpackExponent, unpackMantissa,
    BitVec.extractLsb]
  ext i hi
  grind

theorem append_implicit (m : BitVec 23) : (1#1 ++ m).toNat = 2 ^ 23 + m.toNat := by
  rw [BitVec.toNat_append, ← Nat.shiftLeft_add_eq_or_of_lt m.isLt]
  rfl

theorem pack_subnormal (s : Sign) (m : BitVec 23) (e : Int) (hm : 0 < m.toNat) (he : e = -149) :
    pack .binary32 (.finite s m.toNat e hm) = packComponents .binary32 s 0#8 m := by
  subst he
  have hlog : m.toNat.log2 + 1 ≠ Format.binary32.mantissaBits := by
    change m.toNat.log2 + 1 ≠ 24
    have hlt := (Nat.log2_lt hm.ne').mpr m.isLt
    omega
  have hbiased : ((-149 : Int) + Format.binary32.exponentBias +
      Format.binary32.mantissaBitsWithoutImplicit).toNat = 1 := rfl
  simp only [pack, hbiased]
  rw [if_neg (by decide), if_neg hlog, BitVec.ofNat_toNat, BitVec.setWidth_eq]

theorem pack_normal (s : Sign) (e : BitVec 8) (m : BitVec 23) (k : Int) (hk : k = e.toNat - 150)
    (he : e.toNat + 1 < 2 ^ 8) (hm : 0 < (1#1 ++ m).toNat) :
    pack .binary32 (.finite s (1#1 ++ m).toNat k hm) = packComponents .binary32 s e m := by
  have hvalue := append_implicit m
  have hlt := m.isLt
  have hlog : (1#1 ++ m).toNat.log2 + 1 = Format.binary32.mantissaBits := by
    change (1#1 ++ m).toNat.log2 + 1 = 23 + 1
    rw [Nat.add_right_cancel_iff]
    exact (Nat.log2_eq_iff hm.ne').mpr ⟨by omega, by omega⟩
  have hbiased : (k + Format.binary32.exponentBias +
      Format.binary32.mantissaBitsWithoutImplicit).toNat = e.toNat := by
    change (k + 127 + 23).toNat = e.toNat
    omega
  simp only [pack, hbiased]
  rw [if_neg (by omega), if_pos hlog, BitVec.ofNat_toNat, BitVec.setWidth_eq]
  congr 1
  apply BitVec.eq_of_toNat_eq
  rw [BitVec.toNat_ofNat]
  omega

theorem pack_unpack {b : BitVec 32} (hb : Format.binary32.Valid b) :
    pack .binary32 (unpack .binary32 b) = b := by
  have hagain := components_again b
  unfold unpack
  dsimp only
  by_cases hfull : @unpackExponent .binary32 b = -1#8
  · rw [if_pos hfull]
    by_cases hnone : @unpackMantissa .binary32 b = 0#23
    · rw [hfull, hnone] at hagain
      rw [if_pos hnone]
      exact hagain
    · rw [if_neg hnone]
      exact (hb.eq_packedNaN hfull hnone).symm
  · rw [if_neg hfull]
    by_cases hempty : @unpackExponent .binary32 b = 0#8
    · rw [if_pos hempty]
      by_cases hnone : @unpackMantissa .binary32 b = 0#23
      · rw [hempty, hnone] at hagain
        rw [dif_pos hnone]
        exact hagain
      · rw [dif_neg hnone, pack_subnormal, ← hempty, hagain]
        rw [hempty]
        rfl
    · rw [if_neg hempty, pack_normal, hagain]
      · rfl
      · have hlt : (@unpackExponent .binary32 b).toNat < 2 ^ 8 := BitVec.isLt _
        have hlast : (@unpackExponent .binary32 b).toNat ≠ 2 ^ 8 - 1 :=
          fun h => hfull (BitVec.eq_of_toNat_eq h)
        omega

theorem number_injective {x y : Float32} (h : number x = number y) : x = y := by
  obtain ⟨⟨b, hb⟩⟩ := x
  obtain ⟨⟨c, hc⟩⟩ := y
  have hbits : b.toBitVec = c.toBitVec := by
    rw [← pack_unpack hb, ← pack_unpack hc]
    exact congrArg (pack .binary32) h
  obtain rfl : b = c := UInt32.toBitVec_inj.mp hbits
  rfl

/-- The same number, or both zero. -/
def Similar (a b : UnpackedFloat) : Prop := a = b ∨ ∃ s t, a = .zero s ∧ b = .zero t

def Twin (x y : Float32) : Prop := Similar (number x) (number y)

theorem twin_refl (x : Float32) : Twin x x := .inl rfl

theorem similar_trans {a b c : UnpackedFloat} (h : Similar a b) (h' : Similar b c) :
    Similar a c := by
  rcases h with rfl | ⟨s, t, rfl, rfl⟩
  · exact h'
  · rcases h' with rfl | ⟨t', u, -, rfl⟩
    · exact .inr ⟨s, t, rfl, rfl⟩
    · exact .inr ⟨s, u, rfl, rfl⟩

theorem zero_again (s : Sign) : number (.ofModel (.pack (.zero s))) = .zero s := by
  cases s <;> rfl

theorem packed_twins {a b : UnpackedFloat} (h : Similar a b) :
    Twin (.ofModel (.pack a)) (.ofModel (.pack b)) := by
  rcases h with rfl | ⟨s, t, rfl, rfl⟩
  · exact .inl rfl
  · exact .inr ⟨s, t, zero_again s, zero_again t⟩

theorem zero_number {x : Float32} {s : Sign} (h : number x = .zero s) : x = 0 ∨ x = -0 := by
  cases s with
  | positive => exact .inl (number_injective h)
  | negative => exact .inr (number_injective h)

theorem twin_values {x y : Float32} (h : Twin x y) :
    x = y ∨ (x = 0 ∨ x = -0) ∧ (y = 0 ∨ y = -0) := by
  rcases h with h | ⟨s, t, hx, hy⟩
  · exact .inl (number_injective h)
  · exact .inr ⟨zero_number hx, zero_number hy⟩

/-- The operation gives similar numbers for similar numbers. -/
def KeepsSimilar (f : UnpackedFloat → UnpackedFloat → UnpackedFloat) : Prop :=
  ∀ a a' b b', Similar a a' → Similar b b' → Similar (f a b) (f a' b')

theorem keeps_sides {f : UnpackedFloat → UnpackedFloat → UnpackedFloat}
    (left : ∀ s t b, Similar (f (.zero s) b) (f (.zero t) b))
    (right : ∀ a s t, Similar (f a (.zero s)) (f a (.zero t))) : KeepsSimilar f := by
  intro a a' b b' ha hb
  have hleft : Similar (f a b) (f a' b) := by
    rcases ha with rfl | ⟨s, t, rfl, rfl⟩
    · exact .inl rfl
    · exact left s t b
  have hright : Similar (f a' b) (f a' b') := by
    rcases hb with rfl | ⟨s, t, rfl, rfl⟩
    · exact .inl rfl
    · exact right a' s t
  exact similar_trans hleft hright

theorem keeps_mul : KeepsSimilar (UnpackedFloat.mul .binary32) := by
  apply keeps_sides
  · intro s t b
    cases b <;> simp [UnpackedFloat.mul, Similar]
  · intro a s t
    cases a <;> simp [UnpackedFloat.mul, Similar]

theorem keeps_add : KeepsSimilar (UnpackedFloat.add .binary32) := by
  apply keeps_sides
  · intro s t b
    cases b <;> grind [UnpackedFloat.add, Similar]
  · intro a s t
    cases a <;> grind [UnpackedFloat.add, Similar]

theorem keeps_sub : KeepsSimilar (UnpackedFloat.sub .binary32) := by
  apply keeps_sides
  · intro s t b
    cases b <;> grind [UnpackedFloat.sub, Similar]
  · intro a s t
    cases a <;> grind [UnpackedFloat.sub, Similar]

theorem twin_mul {x x' y y' : Float32} (hx : Twin x x') (hy : Twin y y') :
    Twin (x * y) (x' * y') :=
  packed_twins (keeps_mul _ _ _ _ hx hy)

theorem twin_add {x x' y y' : Float32} (hx : Twin x x') (hy : Twin y y') :
    Twin (x + y) (x' + y') :=
  packed_twins (keeps_add _ _ _ _ hx hy)

theorem twin_sub {x x' y y' : Float32} (hx : Twin x x') (hy : Twin y y') :
    Twin (x - y) (x' - y') :=
  packed_twins (keeps_sub _ _ _ _ hx hy)

theorem twin_div {x x' : Float32} (h : Twin x x') (y : Float32) : Twin (x / y) (x' / y) := by
  have hsimilar {a a' b : UnpackedFloat} (ha : Similar a a') :
      Similar (a.div .binary32 b) (a'.div .binary32 b) := by
    rcases ha with rfl | ⟨s, t, rfl, rfl⟩
    · exact .inl rfl
    · cases b <;> simp [UnpackedFloat.div, Similar]
  exact packed_twins (hsimilar h)

/-- What is added to a number other than minus zero does not show the sign of its zero. -/
theorem add_twins {o x y : Float32} (ho : o ≠ -0) (h : Twin x y) : o + x = o + y := by
  rcases h with h | ⟨s, t, hs, ht⟩
  · rw [number_injective h]
  · apply congrArg Float32.ofModel
    apply congrArg Float32.Model.pack
    change UnpackedFloat.add _ (number o) (number x) = UnpackedFloat.add _ (number o) (number y)
    rw [hs, ht]
    cases hn : number o with
    | zero u =>
      cases u with
      | negative => exact absurd (number_injective hn) ho
      | positive => cases s <;> cases t <;> rfl
    | _ => rfl

theorem compare_similar {a a' b b' : UnpackedFloat} (ha : Similar a a') (hb : Similar b b') :
    a.compare b = a'.compare b' := by
  have hleft : a.compare b = a'.compare b := by
    rcases ha with rfl | ⟨s, t, rfl, rfl⟩
    · rfl
    · rcases b with ⟨⟨⟩⟩ | _ | _ | ⟨⟨⟩, _, _, _⟩ <;> rfl
  have hright : a'.compare b = a'.compare b' := by
    rcases hb with rfl | ⟨s, t, rfl, rfl⟩
    · rfl
    · rcases a' with ⟨⟨⟩⟩ | _ | _ | ⟨⟨⟩, _, _, _⟩ <;> rfl
  exact hleft.trans hright

theorem sign_compare {s t : Sign} (h : compare s t = .eq) : s = t := by
  cases s <;> cases t <;> first | rfl | contradiction

theorem finite_compare {m n : Nat} {e k : Int} (h : (compare e k).then (compare m n) = .eq) :
    m = n ∧ e = k := by
  rw [Ordering.then_eq_eq] at h
  exact ⟨compare_eq_iff_eq.mp h.2, compare_eq_iff_eq.mp h.1⟩

theorem compare_eq {a b : UnpackedFloat} (h : a.compare b = some .eq) : Similar a b := by
  revert h
  -- only numbers of one sort and one sign can be equal, or zeros of any sign
  fun_cases UnpackedFloat.compare a b <;> intro h
  case case3 s t => exact .inl (congrArg infinity (sign_compare (Option.some.inj h)))
  case case12 s t => exact .inr ⟨s, t, rfl, rfl⟩
  case case13 m e hm n k hn =>
    obtain ⟨rfl, rfl⟩ := finite_compare (Ordering.swap_eq_eq.mp (Option.some.inj h))
    exact .inl rfl
  case case16 m e hm n k hn =>
    obtain ⟨rfl, rfl⟩ := finite_compare (Option.some.inj h)
    exact .inl rfl
  all_goals simp at h

theorem beq_compare (x y : Float32) :
    (x == y) = ((number x).compare (number y) == some .eq) := rfl

theorem twin_lt {x x' y y' : Float32} (hx : Twin x x') (hy : Twin y y') : x < y ↔ x' < y' := by
  have hlt (x y : Float32) : x < y ↔ (number x).lt (number y) = true := decide_eq_true_iff
  rw [hlt, hlt, UnpackedFloat.lt, UnpackedFloat.lt, compare_similar hx hy]

theorem twin_le {x x' y y' : Float32} (hx : Twin x x') (hy : Twin y y') : x ≤ y ↔ x' ≤ y' := by
  have hle (x y : Float32) : x ≤ y ↔ (number x).le (number y) = true := decide_eq_true_iff
  rw [hle, hle, UnpackedFloat.le, UnpackedFloat.le, compare_similar hx hy]

theorem equal_twins {x y : Float32} (h : (x == y) = true) : Twin x y := by
  rw [beq_compare, beq_iff_eq] at h
  exact compare_eq h

end DiagramText.SignedZeros
