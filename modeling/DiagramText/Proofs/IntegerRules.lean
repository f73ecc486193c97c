import DiagramText.Color.Reader
import DiagramText.Proofs.Ends
import DiagramText.Style
import Mathlib.Data.Nat.Digits.Defs

/-!
# Integer rules go by the number

A value under an integer rule is trimmed and then read digit by digit in 64
bits. Zeros in front, a sign and blanks around do not count: what decides is the
number that is written, however many digits it has. Digits that leave 64 bits
are never brought back into the range of a rule.
-/

set_option autoImplicit false

namespace DiagramText.IntegerRules
open Text Decimal

/-- The digits of a number behind some zeros. -/
def padded (zeros n : Nat) : List Char := List.replicate zeros '0' ++ Nat.toDigits 10 n

/-- The signs that a number may have. Zero may have any. -/
inductive Sign : Int → List Char → Prop where
  | bare (n : Nat) : Sign n []
  | plus (n : Nat) : Sign n ['+']
  | minus (n : Nat) : Sign (-n) ['-']

/-- The text is the number with a sign, zeros in front of its digits, and blanks around. -/
inductive Spelling (n : Int) : List Char → Prop where
  | mk {front sign back : List Char} (zeros : Nat) (before : ∀ c ∈ front, isBlank c = true)
      (signed : Sign n sign) (behind : ∀ c ∈ back, isBlank c = true) :
      Spelling n (front ++ (sign ++ padded zeros n.natAbs) ++ back)

/-- The attribute takes the numbers from the one bound to the other, however they are written, and
nothing else. -/
structure GoesByNumber (palette : Palette) (a : StyleAttribute) (low high : Int) : Prop where
  spelled : ∀ n text, Spelling n text.toList →
    a.check palette text = if low ≤ n ∧ n ≤ high then .ok () else .error (.intRange low high)
  accepted : ∀ text, a.check palette text = .ok () →
    ∃ n, Spelling n text.toList ∧ low ≤ n ∧ n ≤ high

theorem digits_value (n : Nat) (ds : List Char) : digitsValue n ds = Nat.ofDigitChars 10 ds n := rfl

theorem digit_bounds {d : Char} (hd : d.isDigit = true) : 48 ≤ d.toNat ∧ d.toNat ≤ 57 := by
  simpa [Char.isDigit, UInt32.le_iff_toNat_le] using hd

theorem digit_char {d : Char} (hd : d.isDigit = true) :
    Nat.digitChar (d.toNat - '0'.toNat) = d := by
  obtain ⟨hlo, hhi⟩ := digit_bounds hd
  have hzero : '0'.toNat = 48 := rfl
  apply Char.toNat_inj.mp
  rw [Nat.toNat_digitChar_of_lt_ten (by omega)]
  omega

theorem padded_digits (zeros n : Nat) : (padded zeros n).all Char.isDigit = true := by
  rw [List.all_eq_true, padded, List.forall_mem_append]
  constructor
  · intro d hd
    rw [List.eq_of_mem_replicate hd]
    rfl
  · exact fun d hd => Nat.isDigit_of_mem_toDigits (b := 10) (by decide) (by decide) hd

theorem padded_value (zeros n : Nat) : digitsValue 0 (padded zeros n) = n := by
  rw [digits_value, padded, Nat.ofDigitChars_append, Nat.ofDigitChars_replicate_zero,
    Nat.mul_zero, Nat.ofDigitChars_ten_toDigits]

theorem digits_append {n : Nat} {ds : List Char} (hn : 0 < n) (hds : ds.all Char.isDigit = true) :
    Nat.toDigits 10 n ++ ds = Nat.toDigits 10 (digitsValue n ds) := by
  induction ds generalizing n with
  | nil => simp [digitsValue]
  | cons d ds ih =>
    obtain ⟨hd, hds⟩ := Bool.and_eq_true_iff.mp hds
    obtain ⟨hlo, hhi⟩ := digit_bounds hd
    have hzero : '0'.toNat = 48 := rfl
    have hlast : d.toNat - '0'.toNat < 10 := by omega
    have hlonger := Nat.toDigits_append_toDigits (b := 10) (by decide) hn hlast
    rw [Nat.toDigits_of_lt_base hlast, digit_char hd] at hlonger
    calc Nat.toDigits 10 n ++ d :: ds = (Nat.toDigits 10 n ++ [d]) ++ ds := by simp
      _ = Nat.toDigits 10 (10 * n + (d.toNat - '0'.toNat)) ++ ds := by rw [hlonger]
      _ = Nat.toDigits 10 (digitsValue n (d :: ds)) := ih (by omega) hds

theorem digits_padded {ds : List Char} (hne : ds ≠ []) (hds : ds.all Char.isDigit = true) :
    ∃ zeros, ds = padded zeros (digitsValue 0 ds) := by
  induction ds with
  | nil => exact absurd rfl hne
  | cons d ds ih =>
    obtain ⟨hd, hds⟩ := Bool.and_eq_true_iff.mp hds
    by_cases hzero : d = '0'
    · subst hzero
      cases ds with
      | nil => exact ⟨0, rfl⟩
      | cons e es =>
        obtain ⟨zeros, hzeros⟩ := ih (List.cons_ne_nil e es) hds
        refine ⟨zeros + 1, ?_⟩
        have hvalue : digitsValue 0 ('0' :: e :: es) = digitsValue 0 (e :: es) := rfl
        rw [hvalue, padded, List.replicate_succ, List.cons_append]
        exact congrArg ('0' :: ·) hzeros
    · obtain ⟨hlo, hhi⟩ := digit_bounds hd
      have hnumber : '0'.toNat = 48 := rfl
      have hfirst : d.toNat ≠ '0'.toNat := fun h => hzero (Char.toNat_inj.mp h)
      have hvalue : d.toNat - '0'.toNat < 10 := by omega
      have hrow := digits_append (n := d.toNat - '0'.toNat) (by omega) hds
      rw [Nat.toDigits_of_lt_base hvalue, digit_char hd] at hrow
      refine ⟨0, hrow.trans ?_⟩
      simp [padded, digitsValue]

theorem checked_same {n k : Int} (h : checked64 n = some k) : n = k := by
  unfold checked64 at h
  split at h
  · exact Option.some.inj h
  · simp at h

theorem signed_append (negative : Bool) (n d : Nat) :
    10 * signedValue negative n + signedValue negative d = signedValue negative (10 * n + d) := by
  cases negative <;> simp only [signedValue, Bool.false_eq_true, if_true, if_false] <;> omega

theorem checked_grows {negative : Bool} {m n : Nat} (hle : m ≤ n)
    (h : checked64 (signedValue negative m) = none) :
    checked64 (signedValue negative n) = none := by
  unfold checked64 at h ⊢
  cases negative <;> simp only [signedValue, Bool.false_eq_true, if_true, if_false] at h ⊢ <;>
    grind

theorem checked_bind {negative : Bool} {m n : Nat} (hle : m ≤ n) {f : Int → Option Int}
    (h : f (signedValue negative m) = checked64 (signedValue negative n)) :
    (checked64 (signedValue negative m)).bind f = checked64 (signedValue negative n) := by
  cases hm : checked64 (signedValue negative m) with
  | none => exact (checked_grows hle hm).symm
  | some k =>
    obtain rfl := checked_same hm
    exact h

theorem value_grows (n : Nat) (ds : List Char) : n ≤ digitsValue n ds := by
  rw [digits_value, Nat.ofDigitChars_eq_ofDigitChars_zero]
  exact (Nat.le_mul_of_pos_left n (by positivity)).trans (Nat.le_add_right _ _)

theorem append_checked (negative : Bool) (n : Nat) (d : Char) :
    appendDigit? negative (signedValue negative n) d =
      checked64 (signedValue negative (10 * n + (d.toNat - '0'.toNat))) := by
  have hshift : 10 * signedValue negative n = signedValue negative (10 * n) := by
    simpa only [signedValue, ite_self, Int.natCast_zero, Int.neg_zero, Int.add_zero,
      Nat.add_zero] using signed_append negative n 0
  rw [appendDigit?, hshift]
  refine checked_bind (Nat.le_add_right _ _) ?_
  rw [← hshift, signed_append]

theorem digits_checked (negative : Bool) (n : Nat) (ds : List Char) :
    (checked64 (signedValue negative n)).bind (ds.foldlM (appendDigit? negative)) =
      checked64 (signedValue negative (digitsValue n ds)) := by
  induction ds generalizing n with
  | nil => exact Option.bind_fun_some _
  | cons d ds ih =>
    refine checked_bind (value_grows n (d :: ds)) ?_
    rw [List.foldlM_cons, append_checked]
    exact ih _

theorem read_checked (cs : List Char) : readInt64? cs = (readInt? cs).bind checked64 := by
  rw [readInt64?, readInt?, Option.bind_map]
  congr 1
  funext whole
  have hzero : checked64 (signedValue whole.1 0) = some 0 := by cases whole.1 <;> rfl
  have hdigits := digits_checked whole.1 0 whole.2
  rw [hzero] at hdigits
  exact hdigits

theorem digit_marks {d : Char} (hd : d.isDigit = true) : isBlank d = false := by
  obtain ⟨hlo, hhi⟩ := digit_bounds hd
  simp only [isBlank, blankIntervals, within]
  simp
  omega

theorem sign_digits {ds : List Char} (hds : ds.all Char.isDigit = true) :
    takeSign ds = (false, ds) := by
  unfold takeSign
  split
  · simp at hds
  · simp at hds
  · rfl

theorem whole_some {cs ds : List Char} {negative : Bool} :
    takeWhole? cs = some (negative, ds) ↔
      takeSign cs = (negative, ds) ∧ ds ≠ [] ∧ ds.all Char.isDigit = true := by
  unfold takeWhole?
  dsimp only
  split
  · next hbad =>
    refine iff_of_false (by simp) ?_
    rintro ⟨htaken, hne, hds⟩
    simp only [htaken, List.isEmpty_iff, hne, hds, not_true_eq_false, or_self] at hbad
  · next hgood =>
    rw [not_or, not_not, List.isEmpty_iff] at hgood
    rw [Option.some.injEq]
    exact ⟨fun htaken => ⟨htaken, by simpa only [htaken] using hgood⟩, And.left⟩

theorem sign_taken {n : Int} {sign ds : List Char} (h : Sign n sign)
    (hds : ds.all Char.isDigit = true) :
    ∃ negative, takeSign (sign ++ ds) = (negative, ds) ∧ signedValue negative n.natAbs = n := by
  cases h with
  | bare n => exact ⟨false, sign_digits hds, rfl⟩
  | plus n => exact ⟨false, rfl, rfl⟩
  | minus n => exact ⟨true, rfl, by simp [signedValue]⟩

theorem sign_splits {cs ds : List Char} {negative : Bool} (h : takeSign cs = (negative, ds)) :
    ∃ sign, cs = sign ++ ds ∧ ∀ n, Sign (signedValue negative n) sign := by
  unfold takeSign at h
  split at h
  all_goals obtain ⟨rfl, rfl⟩ := Prod.mk.inj h
  · exact ⟨['-'], rfl, .minus⟩
  · exact ⟨['+'], rfl, .plus⟩
  · exact ⟨[], rfl, .bare⟩

theorem read_spelled {n : Int} {sign : List Char} (h : Sign n sign) (zeros : Nat) :
    readInt? (sign ++ padded zeros n.natAbs) = some n := by
  have hdigits := padded_digits zeros n.natAbs
  have hne : padded zeros n.natAbs ≠ [] := by simp [padded]
  obtain ⟨negative, hsign, hvalue⟩ := sign_taken h hdigits
  rw [readInt?, whole_some.mpr ⟨hsign, hne, hdigits⟩, Option.map_some]
  simp only [padded_value, hvalue]

theorem read_spells {n : Int} {cs : List Char} (h : readInt? cs = some n) :
    ∃ sign zeros, Sign n sign ∧ cs = sign ++ padded zeros n.natAbs := by
  obtain ⟨⟨negative, ds⟩, hwhole, rfl⟩ := Option.map_eq_some_iff.mp h
  obtain ⟨htaken, hne, hds⟩ := whole_some.mp hwhole
  obtain ⟨sign, hcs, hsign⟩ := sign_splits htaken
  obtain ⟨zeros, hzeros⟩ := digits_padded hne hds
  have habs : (signedValue negative (digitsValue 0 ds)).natAbs = digitsValue 0 ds := by
    cases negative <;> simp [signedValue]
  refine ⟨sign, zeros, hsign _, ?_⟩
  rw [habs, ← hzeros]
  exact hcs

theorem trim_around {front core back : List Char} (hfront : ∀ c ∈ front, isBlank c = true)
    (hcore : ∀ c ∈ core, isBlank c = false) (hback : ∀ c ∈ back, isBlank c = true) :
    trim (front ++ core ++ back) = core := by
  rw [Ends.trim_blanks, Ends.stripped_after hback, Ends.stripped_before hfront,
    Ends.stripped_solid (fun c hc => hcore c (List.mem_of_mem_head? hc))
      fun c hc => hcore c (List.mem_of_mem_getLast? hc)]

theorem spelling_iff {n : Int} {cs : List Char} : Spelling n cs ↔ readInt? (trim cs) = some n := by
  constructor
  · rintro @⟨front, sign, back, zeros, hfront, hsign, hback⟩
    have hmarks : ∀ c ∈ sign ++ padded zeros n.natAbs, isBlank c = false := by
      refine List.forall_mem_append.mpr ⟨?_, fun d hd => ?_⟩
      · cases hsign <;> simp <;> decide
      · exact digit_marks (List.all_eq_true.mp (padded_digits zeros n.natAbs) d hd)
    rw [trim_around hfront hmarks hback]
    exact read_spelled hsign zeros
  · intro h
    obtain ⟨sign, zeros, hsign, hcore⟩ := read_spells h
    obtain ⟨front, back, hcs, hfront, hback⟩ := Ends.stripped_split isBlank cs
    rw [hcs, ← Ends.trim_blanks, hcore]
    exact .mk zeros hfront hsign hback

theorem rule_narrow {a : StyleAttribute} {low high n : Int} (h : a.rule = .intRange low high)
    (hn : low ≤ n ∧ n ≤ high) : checked64 n = some n := by
  have hbounds : 0 ≤ low ∧ high ≤ 100 := by
    cases a <;> simp only [StyleAttribute.rule, ValueRule.intRange.injEq, reduceCtorEq] at h <;>
      omega
  unfold checked64
  rw [if_pos (by omega)]

theorem check_exact {palette : Palette} {a : StyleAttribute} {low high : Int}
    (h : a.rule = .intRange low high)
    (text : String) :
    a.check palette text = match readInt? (trim text.toList) with
      | some n => if low ≤ n ∧ n ≤ high then .ok () else .error (.intRange low high)
      | none => .error (.intRange low high) := by
  rw [StyleAttribute.check, ValueRule.check, h, ValueRule.checkTrimmed.eq_def, read_checked]
  cases readInt? (trim text.toList) with
  | none => rfl
  | some n =>
    by_cases hrange : low ≤ n ∧ n ≤ high
    · simp only [Option.bind_some, rule_narrow h hrange]
    · cases hfits : checked64 n with
      | none => simp only [Option.bind_some, hfits, if_neg hrange]
      | some k =>
        obtain rfl := checked_same hfits
        simp only [Option.bind_some, hfits]

theorem integer_rule_decides (palette : Palette) {a : StyleAttribute} {low high : Int}
    (h : a.rule = .intRange low high) : GoesByNumber palette a low high := by
  constructor
  · intro n text hn
    rw [check_exact h, spelling_iff.mp hn]
  · intro text hok
    rw [check_exact h] at hok
    split at hok
    · next n hread =>
      refine ⟨n, spelling_iff.mpr hread, ?_⟩
      by_contra hrange
      simp [if_neg hrange] at hok
    · simp at hok

theorem size_by_number : StyleAttribute.fontSize.rule = .intRange 8 100 ∧
    StyleAttribute.fontSize.check Color.read " +00000000000000000000000012\n" = .ok () ∧
    StyleAttribute.fontSize.check Color.read "18446744073709551624" = .error (.intRange 8 100) := by
  have hsizes : GoesByNumber Color.read .fontSize 8 100 :=
    integer_rule_decides Color.read rfl
  have hspace : ∀ c ∈ [' '], isBlank c = true := List.forall_mem_singleton.mpr rfl
  have hbreak : ∀ c ∈ ['\n'], isBlank c = true := List.forall_mem_singleton.mpr rfl
  have hnone : ∀ c ∈ ([] : List Char), isBlank c = true := List.forall_mem_nil _
  have htwelve : Spelling 12 " +00000000000000000000000012\n".toList :=
    @Spelling.mk 12 [' '] ['+'] ['\n'] 24 hspace (.plus 12) hbreak
  have hwide : Spelling 18446744073709551624 "18446744073709551624".toList :=
    @Spelling.mk 18446744073709551624 [] [] [] 0 hnone (.bare _) hnone
  exact ⟨rfl, hsizes.spelled 12 _ htwelve, hsizes.spelled _ _ hwide⟩

end DiagramText.IntegerRules
