import DiagramText.Id

/-!
# Interned ids

While a program runs, an id is a symbol of one table of texts. The table hands
out a symbol for each text, and what a symbol stands for is looked up in it.
Ids are made one after the other, each from texts or from ids that were made
before.
-/

set_option autoImplicit false

namespace DiagramText

/-- Tables of texts with their symbols. -/
structure Interner where
  Table : Type
  Symbol : Type
  empty : Table
  intern : Table → String → Symbol × Table
  resolve? : Table → Symbol → Option String

/-- A call that makes an id. Ids that were made before are given by their places in a row. -/
inductive Id.Call where
  | new (name : String)
  | ofSegments (segments : List String)
  | nest (parent child : Nat)
  | parent (of : Nat)

namespace Interner

abbrev Action (I : Interner) := StateT I.Table Option

variable (I : Interner)

def text (x : I.Symbol) : I.Action String := do I.resolve? (← get) x

def new (name : String) : I.Action I.Symbol := modifyGet (I.intern · name)

def ofSegments (segments : List String) : I.Action I.Symbol := I.new (Id.joinSegments segments)

def nest (parent child : I.Symbol) : I.Action I.Symbol := do
  let p ← I.text parent
  let c ← I.text child
  I.new (Id.nest ⟨p⟩ ⟨c⟩).text

def parent? (x : I.Symbol) : I.Action (Option I.Symbol) := do
  match Id.parent? ⟨← I.text x⟩ with
  | some p => return some (← I.new p.text)
  | none => return none

def depth (x : I.Symbol) : I.Action Nat := return Id.depth ⟨← I.text x⟩

def spells (x : I.Symbol) (text : String) : I.Action Bool :=
  return I.resolve? (← get) x == some text

def call (row : List I.Symbol) : Id.Call → I.Action (Option I.Symbol)
  | .new name => return some (← I.new name)
  | .ofSegments segments => return some (← I.ofSegments segments)
  | .nest parent child =>
    match row[parent]?, row[child]? with
    | some p, some c => return some (← I.nest p c)
    | _, _ => return none
  | .parent of =>
    match row[of]? with
    | some x => I.parent? x
    | none => return none

theorem nodup_snoc {texts : List String} {text : String} (h : texts.Nodup) (hnew : text ∉ texts) :
    (texts ++ [text]).Nodup := by
  rw [List.nodup_append]
  refine ⟨h, by simp, fun s hs t ht => ?_⟩
  rw [List.mem_singleton.mp ht]
  exact fun heq => hnew (heq ▸ hs)

def listed : Interner where
  Table := {texts : List String // texts.Nodup}
  Symbol := Nat
  empty := ⟨[], List.nodup_nil⟩
  intern table text :=
    if h : text ∈ table.val then (table.val.idxOf text, table)
    else (table.val.length, ⟨table.val ++ [text], nodup_snoc table.property h⟩)
  resolve? table x := table.val[x]?

end Interner

end DiagramText
