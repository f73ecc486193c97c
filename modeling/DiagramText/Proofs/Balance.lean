import DiagramText.Proofs.Derivation

/-!
# Where braces balance

Outside attribute values the braces of a derivation balance up to the end of
the document: blocks are closed, what is recovered from ends where its braces
do, and no other leaf holds a brace. A value takes braces as they come. So the
group that lookahead counts is the block that the grammar reads exactly if
the counter of the block's tokens is back at zero before its closing brace,
and a block whose values hold no brace is such a block.
-/

set_option autoImplicit false

namespace DiagramText.Balance
open Lookahead Measures Braces Production DiagramText.Derivation DiagramText.Tree

/-- No value in the row holds a brace. -/
def BracelessValues (xs : List Tree) : Prop :=
  ∀ v ∈ nodesAll xs, v.isKind .attributeValue = true → ∀ t ∈ v.tokens, isBrace t.kind = false

theorem level_append {us vs ws : List Token} (hu : Level us (vs ++ ws)) (hv : Level vs ws) :
    Level (us ++ vs) ws := by
  obtain ⟨d, hd, hz⟩ := hu
  obtain ⟨e, he, hw⟩ := hv
  by_cases h : vs ++ ws = []
  · obtain ⟨rfl, rfl⟩ : vs = [] ∧ ws = [] := by simpa using h
    exact ⟨d, by simpa using hd, fun hne => absurd rfl hne⟩
  · obtain rfl : d = 0 := hz h
    exact ⟨e, by rw [depth_append, hd, Option.bind_some, he], hw⟩

theorem level_enclosed {t u : Token} {us ws : List Token} (ht : t.kind = .leftBrace)
    (hu : u.kind = .rightBrace) (h : braceDepth? 0 us = some 0) :
    Level (t :: (us ++ [u])) ws := by
  refine ⟨0, ?_, fun _ => rfl⟩
  have hs := depth_shift 0 0 1 us h
  simp only [braceDepth?, ht, if_true]
  rw [depth_append, hs, Option.bind_some]
  simp [braceDepth?, hu]

theorem braceless_append {xs ys : List Tree} (h : BracelessValues (xs ++ ys)) :
    BracelessValues xs ∧ BracelessValues ys :=
  forall_nodes_append.mp h

theorem braceless_inside {kind : NodeKind} {s : Nat} {xs : List Tree}
    (h : BracelessValues [.node kind s xs]) : BracelessValues xs :=
  (forall_nodes_node.mp h).2

theorem braceless_tail {t : Token} {xs : List Tree} (h : BracelessValues (.token t :: xs)) :
    BracelessValues xs := h

theorem braceless_value {s : Nat} {xs : List Tree}
    (h : BracelessValues [.node .attributeValue s xs]) :
    ∀ t ∈ tokensAll xs, isBrace t.kind = false :=
  (forall_nodes_node.mp h).1 rfl

theorem braceless_enclosed {kind : NodeKind} {s : Nat} {t : Token} {xs close : List Tree}
    (h : BracelessValues [.node kind s (.token t :: (xs ++ close))]) : BracelessValues xs :=
  (braceless_append (braceless_tail (braceless_inside h))).1

theorem leaf_level {kind : NodeKind} {s : Nat} {us : List Token} (ts : List Token)
    (hl : Leaf kind us) (h : BracelessValues [.node kind s (us.map .token)]) : Level us ts := by
  apply level_plain us ts
  rcases hl with ⟨-, hplain, -⟩ | ⟨rfl, -⟩
  · exact hplain
  · simpa using braceless_value h

theorem derives_level {size : Nat} {ts us : List Token} {xs : List Tree} {ds : List Diagnostic}
    (h : Derives size ts xs ds us) (hp : BracelessValues xs) : Level (tokensAll xs) us := by
  induction h with
  | nil ts => exact ⟨0, rfl, fun _ => rfl⟩
  | append _ second ih ih' =>
    obtain ⟨hx, hy⟩ := braceless_append hp
    rw [tokensAll_append]
    exact level_append (derives_tokens second ▸ ih hx) (ih' hy)
  | token t ts plain => exact level_plain [t] ts (by simpa using plain)
  | leaf kind t us ts tokens =>
    have hlev := leaf_level ts tokens hp
    simpa [tokensAll, Tree.tokens] using hlev
  | silent t us ts _ level | rejected t us ts _ _ _ _ level =>
    simpa [tokensAll, Tree.tokens] using level
  | missing ts => exact ⟨0, rfl, fun _ => rfl⟩
  | deepValue | arrayValue =>
    apply level_plain _ _
    simpa [tokensAll, Tree.tokens] using braceless_value hp
  | @closedArray t u ts us xs ds bracket _ _ close ih =>
    have hopen := level_plain [t] (tokensAll xs ++ [u] ++ us) (by simp [isBrace, bracket])
    have hclose := level_plain [u] us (by simp [isBrace, close])
    simpa [tokensAll, Tree.tokens] using
      level_append hopen (level_append (ih (braceless_enclosed hp)) hclose)
  | @openArray t ts us xs ds bracket _ _ ih =>
    have hopen := level_plain [t] (tokensAll xs ++ us) (by simp [isBrace, bracket])
    simpa [tokensAll, Tree.tokens] using
      level_append hopen (ih (braceless_tail (braceless_inside hp)))
  | @closedBlock kind scope t u ts us xs ds body brace _ items close ih =>
    obtain ⟨d, hd, hz⟩ := ih (braceless_enclosed hp)
    obtain rfl : d = 0 := hz (by simp)
    simpa [tokensAll, Tree.tokens] using level_enclosed brace close hd
  | @openBlock kind scope t ts xs ds body brace _ items ih =>
    obtain ⟨d, hd, -⟩ := ih (braceless_tail (braceless_inside hp))
    refine ⟨d + 1, ?_, fun hne => absurd rfl hne⟩
    simpa [tokensAll, Tree.tokens, braceDepth?, brace] using depth_shift 0 d 1 _ hd
  | definition _ _ _ ih => simpa [tokensAll, Tree.tokens] using ih (braceless_inside hp)
  | @connection ts us vs ws kind source links rest ds es fs _ chain last _ _ _ _ _ _ ih ih' ih'' =>
    obtain ⟨hs, hlr⟩ := @braceless_append [source] _ (braceless_inside hp)
    obtain ⟨hl, hr⟩ := braceless_append hlr
    have hchain := level_append (derives_tokens last ▸ ih' hl) (ih'' hr)
    have hus : us = tokensAll links ++ tokensAll rest ++ ws := by
      rw [List.append_assoc, ← derives_tokens last]
      exact derives_tokens chain
    have hall := level_append (hus ▸ ih hs) hchain
    simpa [tokensAll, Tree.tokens] using hall

theorem group_pos {depth n : Nat} {t : Token} {ts : List Token}
    (h : groupLength? .leftBrace .rightBrace (depth + 1) (t :: ts) = some n) : 0 < n := by
  simp only [groupLength?] at h
  split at h
  · obtain ⟨k, -, rfl⟩ := Option.map_eq_some_iff.mp h
    omega
  · split at h
    · split at h
      · simp at h
      · simp at h
        omega
      · obtain ⟨k, -, rfl⟩ := Option.map_eq_some_iff.mp h
        omega
    · obtain ⟨k, -, rfl⟩ := Option.map_eq_some_iff.mp h
      omega

theorem group_closes {depth : Nat} {us : List Token} {u : Token} (ts : List Token)
    (hu : u.kind = .rightBrace) (h : braceDepth? depth us = some 0) :
    groupLength? .leftBrace .rightBrace (depth + 1) (us ++ u :: ts) = some (us.length + 1) := by
  have hg := group_append depth 0 0 us (u :: ts) h
  simp only [Nat.add_zero] at hg
  rw [hg]
  simp [groupLength?, hu, Nat.add_comm]

/-- A group ends at the closing brace exactly if the counter is at zero before it. Where nothing
follows, an unclosed group would end there too. -/
theorem group_exact {depth : Nat} {us ts : List Token} {u : Token} (hu : u.kind = .rightBrace)
    (hts : ts ≠ []) :
    groupLength? .leftBrace .rightBrace (depth + 1) (us ++ u :: ts) = some (us.length + 1) ↔
      braceDepth? depth us = some 0 := by
  constructor
  · intro h
    induction us generalizing depth with
    | nil =>
      cases depth with
      | zero => rfl
      | succ depth =>
        obtain ⟨t, ts, rfl⟩ := List.exists_cons_of_ne_nil hts
        simp only [List.nil_append, groupLength?] at h
        rw [if_neg (by simp [hu]), if_pos hu] at h
        obtain ⟨m, hm, hlen⟩ := Option.map_eq_some_iff.mp h
        have hpos := group_pos hm
        rw [List.length_nil] at hlen
        omega
    | cons v us ih =>
      have step (k : Nat) (hk : (groupLength? .leftBrace .rightBrace (k + 1) (us ++ u :: ts)).map
          (· + 1) = some ((v :: us).length + 1)) : braceDepth? k us = some 0 := by
        obtain ⟨m, hm, hlen⟩ := Option.map_eq_some_iff.mp hk
        rw [List.length_cons, Nat.add_right_cancel_iff] at hlen
        exact ih (hlen ▸ hm)
      simp only [List.cons_append, groupLength?] at h
      simp only [braceDepth?]
      by_cases hl : v.kind = .leftBrace
      · rw [if_pos hl] at h ⊢
        exact step (depth + 1) h
      rw [if_neg hl] at h ⊢
      by_cases hr : v.kind = .rightBrace
      · rw [if_pos hr] at h ⊢
        cases depth with
        | zero => simp at h
        | succ depth => exact step depth h
      · rw [if_neg hr] at h ⊢
        exact step depth h
  · exact group_closes ts hu

end DiagramText.Balance
