/-!
# TOML tables

A table remembers how it came about, because that decides what later lines
may still add to it: a table that is only named on the way to another may get
a header of its own, dotted keys extend only tables without a header, which
they make theirs, and tables written inline are complete. No key is given a
value twice, and no way to a table is too long.
-/

set_option autoImplicit false

namespace DiagramText.Toml

abbrev Key := List Char

inductive Fault where
  | malformed
  | tooDeep
  deriving DecidableEq, Repr

inductive Origin where
  | passing
  | header
  | dotted
  | inline
  deriving DecidableEq, Repr

inductive Value where
  | boolean (b : Bool)
  | text (chars : List Char)
  | integer (n : Int)
  | float (overflows : Bool)
  | moment
  | array (isOpen : Bool) (items : List Value)
  | table (origin : Origin) (fields : List (Key × Value))

abbrev Fields := List (Key × Value)

def fitsInteger (n : Int) : Bool := -Int.pow 2 127 ≤ n && n < Int.pow 2 128

mutual

def Value.fits : Value → Bool
  | .integer n => fitsInteger n
  | .float overflows => !overflows
  | .array _ items => fitsItems items
  | .table _ fields => fitsFields fields
  | _ => true

def fitsItems : List Value → Bool
  | [] => true
  | v :: vs => v.fits && fitsItems vs

def fitsFields : List (Key × Value) → Bool
  | [] => true
  | (_, v) :: fs => v.fits && fitsFields fs

end

namespace Fields

def put (k : Key) (v : Value) : Fields → Fields
  | [] => [(k, v)]
  | (k', v') :: fs => if k' = k then (k, v) :: fs else (k', v') :: put k v fs

end Fields

def Origin.ofStep (byDots : Bool) : Origin := if byDots then .dotted else .passing

def Origin.passed? (byDots : Bool) : Origin → Option Origin
  | .passing => some (.ofStep byDots)
  | .dotted => some .dotted
  | .header => if byDots then none else some .header
  | .inline => none

/-- Changes the table at the end of a way, which is made of tables and of the last items of open
arrays. -/
def change (byDots : Bool) (edit : Origin → Fields → Except Fault Fields) :
    List Key → Origin → Fields → Except Fault Fields
  | [], origin, fs => edit origin fs
  | k :: way, _, fs =>
    match fs.lookup k with
    | none =>
      let made := Origin.ofStep byDots
      (change byDots edit way made []).map fun inner => Fields.put k (.table made inner) fs
    | some (.table origin inner) =>
      match origin.passed? byDots with
      | some passed =>
        (change byDots edit way passed inner).map fun inner =>
          Fields.put k (.table passed inner) fs
      | none => .error .malformed
    | some (.array true items) =>
      match items.getLast? with
      | some (.table origin inner) =>
        (change byDots edit way origin inner).map fun inner =>
          Fields.put k (.array true (items.dropLast ++ [.table origin inner])) fs
      | _ => .error .malformed
    | some _ => .error .malformed

def depthLimit : Nat := 80

def changeWithin (byDots : Bool) (edit : Origin → Fields → Except Fault Fields)
    (way : List Key) (origin : Origin) (fs : Fields) : Except Fault Fields :=
  if way.length < depthLimit then change byDots edit way origin fs else .error .tooDeep

structure KeyValue where
  way : List Key
  key : Key
  value : Value

def assign (origin : Origin) (fs : Fields) (a : KeyValue) : Except Fault Fields :=
  changeWithin true
    (fun last inner =>
      if (last == .dotted) == a.way.isEmpty then .error .malformed
      else if (inner.lookup a.key).isSome then .error .malformed
      else .ok (Fields.put a.key a.value inner))
    a.way origin fs

def assignAll (origin : Origin) (fs : Fields) (as : List (Except Fault KeyValue)) :
    Except Fault Fields :=
  as.foldlM (fun fs a => a.bind (assign origin fs)) fs

structure Header where
  way : List Key
  key : Key
  isItem : Bool

/-- Adds an item to an open array, which the first item makes. -/
def append (h : Header) (item : Fields) (parent : Fields) : Except Fault Fields :=
  match parent.lookup h.key with
  | none => .ok (Fields.put h.key (.array true [.table .header item]) parent)
  | some (.array true items) =>
    .ok (Fields.put h.key (.array true (items ++ [.table .header item])) parent)
  | some _ => .error .malformed

/-- What a table holds when its header opens it. -/
def opened (h : Header) (parent : Fields) : Except Fault Fields :=
  match parent.lookup h.key with
  | none => .ok []
  | some (.table .passing inner) => .ok inner
  | some _ => .error .malformed

def define (fs : Fields) (h : Header) (as : List (Except Fault KeyValue)) :
    Except Fault Fields :=
  if h.isItem then do
    let item ← assignAll .header [] as
    changeWithin false (fun _ parent => append h item parent) h.way .header fs
  else
    changeWithin false
      (fun _ parent => do
        let t ← assignAll .header (← opened h parent) as
        return Fields.put h.key (.table .header t) parent)
      h.way .header fs

end DiagramText.Toml
