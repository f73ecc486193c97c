import DiagramText.Proofs.Layout
import Mathlib.Data.List.Chain

/-!
# Building a tree from events

A tree is put together from a stream of events: a node starts, a token is
added to the innermost open node, the innermost node is finished. The builder
keeps the offset behind the last token and takes every offset of a node from
it. It refuses a token that leaves a gap, an event that no open node can
take, and a node whose children do not touch. The events of a placed row of
trees are never refused and give the row back.
-/

set_option autoImplicit false

namespace DiagramText.Building
open Layout DiagramText.Tree

inductive Event where
  | start (kind : NodeKind)
  | token (t : Token)
  | finish

structure Frame where
  kind : NodeKind
  opened : Nat
  children : List Tree

/-- The open nodes, innermost first, and the offset behind the last token. -/
structure TreeBuilder where
  stack : List Frame
  cursor : Nat

namespace Frame

def add (f : Frame) (xs : List Tree) : Frame := { f with children := f.children ++ xs }

def first (f : Frame) : Nat := (f.children.head?.map (·.start)).getD f.opened

def last (f : Frame) : Nat := (f.children.getLast?.map (·.stop)).getD f.opened

def close? (f : Frame) : Option Tree :=
  if f.children.IsChain (fun a b => a.stop = b.start) ∧ f.first ≤ f.last then
    some (.node f.kind f.first f.children)
  else none

end Frame

def step? (b : TreeBuilder) : Event → Option TreeBuilder
  | .start kind => some ⟨⟨kind, b.cursor, []⟩ :: b.stack, b.cursor⟩
  | .token t =>
    match b.stack with
    | f :: rest => if t.start = b.cursor then some ⟨f.add [.token t] :: rest, t.stop⟩ else none
    | [] => none
  | .finish =>
    match b.stack with
    | f :: parent :: rest => f.close?.map fun x => ⟨parent.add [x] :: rest, b.cursor⟩
    | _ => none

def run? (b : TreeBuilder) (es : List Event) : Option TreeBuilder := es.foldlM step? b

def build? (size : Nat) (es : List Event) : Option Tree :=
  (run? ⟨[⟨.document, 0, []⟩], 0⟩ es).bind fun b =>
    match b.stack with
    | [f] => if b.cursor = size then f.close? else none
    | _ => none

/-- The events that build a row of trees, in document order. -/
def events : List Tree → List Event
  | [] => []
  | .token t :: xs => .token t :: events xs
  | .node kind _ cs :: xs => .start kind :: (events cs ++ .finish :: events xs)

theorem add_add (f : Frame) (xs ys : List Tree) : (f.add xs).add ys = f.add (xs ++ ys) := by
  simp [Frame.add]

theorem add_nil (f : Frame) : f.add [] = f := by
  simp [Frame.add]

theorem run_append (b : TreeBuilder) (es fs : List Event) :
    run? b (es ++ fs) = (run? b es).bind (run? · fs) := by
  simp [run?, List.foldlM_append, bind]

theorem run_cons (b : TreeBuilder) (e : Event) (es : List Event) :
    run? b (e :: es) = (step? b e).bind (run? · es) := rfl

theorem close_placed {kind : NodeKind} {offset : Nat} {cs : List Tree} (h : Placed offset cs) :
    Frame.close? ⟨kind, offset, cs⟩ = some (.node kind offset cs) := by
  have hfirst : Frame.first ⟨kind, offset, cs⟩ = offset := by
    cases cs with
    | nil => rfl
    | cons c cs => exact (placed_start h).1
  have hlast : Frame.last ⟨kind, offset, cs⟩ = stopAll offset cs := by
    cases hl : cs.getLast? with
    | none =>
      obtain rfl : cs = [] := by simpa using hl
      rfl
    | some x =>
      rw [stopAll_last hl]
      simp [Frame.last, hl]
  have hle : offset ≤ stopAll offset cs := by
    rw [placed_stop h]
    exact Nat.le_add_right _ _
  simp only [Frame.close?, hfirst, hlast]
  exact if_pos ⟨placed_chain h, hle⟩

theorem run_events {offset : Nat} {xs : List Tree} (h : Placed offset xs) (f : Frame)
    (rest : List Frame) :
    run? ⟨f :: rest, offset⟩ (events xs) = some ⟨f.add xs :: rest, stopAll offset xs⟩ := by
  induction xs using forest_induction generalizing offset f rest with
  | nil =>
    rw [events, add_nil]
    rfl
  | token t xs ih =>
    obtain ⟨hs, hp⟩ := (placed_token offset t xs).mp h
    rw [events, run_cons, step?]
    simp only [hs, if_true, Option.bind_some]
    rw [ih hp, add_add]
    rfl
  | node k s cs xs ihc ih =>
    obtain ⟨rfl, hc, hp⟩ := (placed_node offset k s cs xs).mp h
    have hclose : Frame.close? (Frame.add ⟨k, s, []⟩ cs) = some (.node k s cs) := close_placed hc
    rw [events, run_cons, step?, Option.bind_some, run_append, ihc hc, Option.bind_some, run_cons]
    simp only [step?, hclose, Option.map_some, Option.bind_some]
    rw [ih hp, add_add]
    rfl

theorem build_events {size : Nat} {xs : List Tree} (h : Placed 0 xs) (hs : stopAll 0 xs = size) :
    build? size (events xs) = some (.node .document 0 xs) := by
  rw [build?, run_events h, Option.bind_some]
  simp only [hs, if_true]
  exact close_placed h

end DiagramText.Building
