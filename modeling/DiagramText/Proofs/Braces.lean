import DiagramText.Proofs.Measures

/-!
# Counting braces

A counter goes up at an opening brace and down at a closing one, and has no
value below zero. The measures that balance braces are told from it: the rest
of a statement and a group stop where the counter is back at zero, or at the
end of the document. Where a group ends depends only on the counter of the
tokens inside it.
-/

set_option autoImplicit false

namespace DiagramText.Braces
open Lookahead Measures

/-- The counter after the tokens; none if it falls below zero. -/
def braceDepth? : Nat → List Token → Option Nat
  | depth, [] => some depth
  | depth, t :: ts =>
    if t.kind = .leftBrace then braceDepth? (depth + 1) ts
    else if t.kind = .rightBrace then
      match depth with
      | 0 => none
      | depth + 1 => braceDepth? depth ts
    else braceDepth? depth ts

/-- The braces of a piece balance, unless the document ends with it. -/
def Level (us rest : List Token) : Prop :=
  ∃ d, braceDepth? 0 us = some d ∧ (rest ≠ [] → d = 0)

theorem depth_append (depth : Nat) (us ts : List Token) :
    braceDepth? depth (us ++ ts) = (braceDepth? depth us).bind (braceDepth? · ts) := by
  induction us generalizing depth with
  | nil => rfl
  | cons t us ih =>
    simp only [List.cons_append, braceDepth?]
    split
    · exact ih (depth + 1)
    · split
      · cases depth with
        | zero => rfl
        | succ depth => exact ih depth
      · exact ih depth

theorem depth_shift (depth e k : Nat) (us : List Token) (h : braceDepth? depth us = some e) :
    braceDepth? (depth + k) us = some (e + k) := by
  induction us generalizing depth with
  | nil =>
    obtain rfl : depth = e := by simpa [braceDepth?] using h
    rfl
  | cons t us ih =>
    simp only [braceDepth?] at h ⊢
    split at h
    · next hl =>
      rw [if_pos hl, show depth + k + 1 = depth + 1 + k by omega]
      exact ih (depth + 1) h
    · next hl =>
      rw [if_neg hl]
      split at h
      · next hr =>
        rw [if_pos hr]
        cases depth with
        | zero => simp at h
        | succ depth =>
          rw [show depth + 1 + k = depth + k + 1 by omega]
          exact ih depth h
      · next hr =>
        rw [if_neg hr]
        exact ih depth h

theorem depth_plain (depth : Nat) (us : List Token)
    (h : ∀ t ∈ us, isBrace t.kind = false) : braceDepth? depth us = some depth := by
  induction us with
  | nil => rfl
  | cons t us ih =>
    have ht := h t (by simp)
    simp only [isBrace, Bool.or_eq_false_iff, beq_eq_false_iff_ne] at ht
    simp only [braceDepth?, ht.1, ht.2, if_false]
    exact ih (fun u hu => h u (by simp [hu]))

theorem level_plain (us rest : List Token) (h : ∀ t ∈ us, isBrace t.kind = false) :
    Level us rest :=
  ⟨0, depth_plain 0 us h, fun _ => rfl⟩

theorem statement_measure (depth : Nat) (ts : List Token) :
    ∃ n d, statementLength? depth ts = some n ∧ n ≤ ts.length ∧
      braceDepth? depth (ts.take n) = some d ∧ (ts.drop n ≠ [] → d = 0) := by
  induction ts generalizing depth with
  | nil => exact ⟨0, depth, rfl, le_rfl, rfl, fun h => absurd rfl h⟩
  | cons t ts ih =>
    by_cases hz : depth = 0 ∧ isTerminator t.kind
    · refine ⟨0, depth, by simp only [statementLength?, if_pos hz], Nat.zero_le _, rfl, ?_⟩
      exact fun _ => hz.1
    by_cases hr : t.kind = .rightBrace
    · cases depth with
      | zero => exact absurd ⟨rfl, by simp [isTerminator, hr]⟩ hz
      | succ depth =>
        obtain ⟨n, d, hn, hle, hd, he⟩ := ih depth
        exact ⟨n + 1, d, by simp [statementLength?, hr, hn], Nat.succ_le_succ hle,
          by simpa [braceDepth?, hr] using hd, he⟩
    by_cases hl : t.kind = .leftBrace
    · obtain ⟨n, d, hn, hle, hd, he⟩ := ih (depth + 1)
      exact ⟨n + 1, d, by simp [statementLength?, hl, isTerminator, hn], Nat.succ_le_succ hle,
        by simpa [braceDepth?, hl] using hd, he⟩
    · obtain ⟨n, d, hn, hle, hd, he⟩ := ih depth
      exact ⟨n + 1, d, by simp only [statementLength?, if_neg hz, if_neg hr, if_neg hl, hn]; rfl,
        Nat.succ_le_succ hle, by simpa [braceDepth?, hr, hl] using hd, he⟩

theorem statement_pos (t : Token) (ts : List Token) (n : Nat)
    (ht : isTerminator t.kind = false) (h : statementLength? 0 (t :: ts) = some n) : 0 < n := by
  have hr : t.kind ≠ .rightBrace := by
    rintro hr
    simp [isTerminator, hr] at ht
  simp only [statementLength?, ht, Bool.false_eq_true, and_false, if_false, if_neg hr] at h
  split at h
  all_goals
    obtain ⟨m, -, rfl⟩ := Option.map_eq_some_iff.mp h
    omega

theorem group_counted (o c : TokenKind) (depth : Nat) (ts : List Token) :
    ∃ n, groupLength? o c (depth + 1) ts = some n ∧ n ≤ ts.length := by
  induction ts generalizing depth with
  | nil => exact ⟨0, rfl, le_rfl⟩
  | cons t ts ih =>
    by_cases ho : t.kind = o
    · obtain ⟨n, hn, hle⟩ := ih (depth + 1)
      exact ⟨n + 1, by simp [groupLength?, ho, hn], Nat.succ_le_succ hle⟩
    by_cases hc : t.kind = c
    · cases depth with
      | zero => exact ⟨1, by simp only [groupLength?, if_neg ho, if_pos hc], by simp⟩
      | succ depth =>
        obtain ⟨n, hn, hle⟩ := ih depth
        exact ⟨n + 1, by simp only [groupLength?, if_neg ho, if_pos hc, hn]; rfl,
          Nat.succ_le_succ hle⟩
    · obtain ⟨n, hn, hle⟩ := ih depth
      exact ⟨n + 1, by simp only [groupLength?, if_neg ho, if_neg hc, hn]; rfl,
        Nat.succ_le_succ hle⟩

theorem group_ends {o c : TokenKind} {depth n : Nat} {ts : List Token}
    (h : groupLength? o c depth ts = some n) :
    (∃ t ∈ (ts.take n).getLast?, t.kind = c) ∨ ts.drop n = [] := by
  induction ts generalizing depth n with
  | nil => exact .inr (by simp)
  | cons t ts ih =>
    have hstep {d : Nat} (hd : (groupLength? o c d ts).map (· + 1) = some n) :
        (∃ u ∈ ((t :: ts).take n).getLast?, u.kind = c) ∨ (t :: ts).drop n = [] := by
      obtain ⟨m, hm, rfl⟩ := Option.map_eq_some_iff.mp hd
      refine (ih hm).imp_left fun ⟨u, hu, hk⟩ => ⟨u, ?_, hk⟩
      rw [List.take_succ_cons, List.getLast?_cons, Option.mem_def.mp hu]
      rfl
    simp only [groupLength?] at h
    split at h
    · exact hstep h
    · split at h
      · next hc =>
        split at h
        · simp at h
        · obtain rfl : 1 = n := by simpa using h
          exact .inl ⟨t, rfl, hc⟩
        · exact hstep h
      · exact hstep h

theorem group_open (o c : TokenKind) (t : Token) (ts : List Token) (h : t.kind = o) :
    ∃ n, groupLength? o c 0 (t :: ts) = some (n + 1) ∧ n ≤ ts.length := by
  obtain ⟨n, hn, hle⟩ := group_counted o c 0 ts
  exact ⟨n, by simp [groupLength?, h, hn], hle⟩

theorem group_level (depth n : Nat) (ts : List Token)
    (h : groupLength? .leftBrace .rightBrace depth ts = some n) :
    ∃ d, braceDepth? depth (ts.take n) = some d ∧ (ts.drop n ≠ [] → d = 0) := by
  induction ts generalizing depth n with
  | nil => exact ⟨depth, by simp [braceDepth?], by simp⟩
  | cons t ts ih =>
    simp only [groupLength?] at h
    split at h
    · next hl =>
      obtain ⟨m, hm, rfl⟩ := Option.map_eq_some_iff.mp h
      simpa [braceDepth?, hl] using ih (depth + 1) m hm
    · next hl =>
      split at h
      · next hr =>
        split at h
        · simp at h
        · obtain rfl : 1 = n := by simpa using h
          exact ⟨0, by simp [braceDepth?, hr], fun _ => rfl⟩
        · next depth =>
          obtain ⟨m, hm, rfl⟩ := Option.map_eq_some_iff.mp h
          simpa [braceDepth?, hr] using ih (depth + 1) m hm
      · next hr =>
        obtain ⟨m, hm, rfl⟩ := Option.map_eq_some_iff.mp h
        simpa [braceDepth?, hl, hr] using ih depth m hm

theorem group_append (depth e d : Nat) (us ts : List Token) (h : braceDepth? depth us = some e) :
    groupLength? .leftBrace .rightBrace (depth + 1 + d) (us ++ ts) =
      (groupLength? .leftBrace .rightBrace (e + 1 + d) ts).map (· + us.length) := by
  induction us generalizing depth with
  | nil =>
    obtain rfl : depth = e := by simpa [braceDepth?] using h
    simp
  | cons t us ih =>
    have step (k : Nat) (hk : braceDepth? k us = some e) :
        (groupLength? .leftBrace .rightBrace (k + 1 + d) (us ++ ts)).map (· + 1) =
          (groupLength? .leftBrace .rightBrace (e + 1 + d) ts).map (· + (t :: us).length) := by
      rw [ih k hk, Option.map_map]
      rfl
    simp only [braceDepth?] at h
    simp only [List.cons_append, groupLength?]
    split at h
    · next hl =>
      rw [if_pos hl, show depth + 1 + d + 1 = depth + 1 + 1 + d by omega]
      exact step (depth + 1) h
    · next hl =>
      rw [if_neg hl]
      split at h
      · next hr =>
        rw [if_pos hr]
        cases depth with
        | zero => simp at h
        | succ depth =>
          rw [show depth + 1 + 1 + d = depth + d + 2 by omega]
          simp only
          rw [show depth + d + 1 = depth + 1 + d by omega]
          exact step depth h
      · next hr =>
        rw [if_neg hr]
        exact step depth h

end DiagramText.Braces
