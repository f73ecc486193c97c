import DiagramText.Toml.Quoted
import DiagramText.Toml.Scalar
import DiagramText.Toml.Table

/-!
# TOML documents

A document is a row of lines: assignments, headers that open a table for the
assignments after them, comments and blank lines. Arrays and inline tables
span lines and nest up to a fixed depth. The whole text has to have this shape
before its parts are given a meaning, one after another.
-/

set_option autoImplicit false

namespace DiagramText.Toml

def skipGap (inComment : Bool) : List Char → List Char
  | '\n' :: cs => skipGap false cs
  | '\r' :: '\n' :: cs => skipGap false cs
  | c :: cs =>
    if inComment then if isPlain c then skipGap true cs else c :: cs
    else if isSpace c then skipGap false cs
    else if c = '#' then skipGap true cs
    else c :: cs
  | [] => []

def comma? (close : Char) (cs : List Char) : Option (List Char) :=
  match skipGap false cs with
  | ',' :: rest =>
    match skipGap false rest with
    | c :: more => if c = close then none else some (c :: more)
    | [] => none
  | _ => none

def closing? (close : Char) (cs : List Char) : Option (List Char) :=
  let rest :=
    match skipGap false cs with
    | ',' :: rest => skipGap false rest
    | rest => rest
  match rest with
  | c :: rest => if c = close then some rest else none
  | [] => none

def items? {α : Type} (close : Char) (item : Reader α) : Reader (List α) := fun cs =>
  match skipGap false cs with
  | [] => none
  | c :: rest =>
    if c = close then some ([], rest)
    else
      match joined? item (comma? close) (c :: rest) with
      | some (xs, rest) => (closing? close rest).map (xs, ·)
      | none => none

def assignment? (skip : List Char → List Char) (value : Reader (Except Fault Value)) :
    Reader (Except Fault KeyValue) := fun cs => do
  let (key, rest) ← dottedKey? cs
  match skip rest with
  | '=' :: rest =>
    let (v, rest) ← value (skip rest)
    return (key.bind fun k => v.map fun v => ⟨k.1, k.2, v⟩, rest)
  | _ => none

/-- A value with at most that many arrays and inline tables around its innermost parts. The
assignments of an inline table span lines too. -/
def value? : Nat → Reader (Except Fault Value)
  | _, '"' :: cs => (string? ('"' :: cs)).map fun r => (r.1.map .text, r.2)
  | _, '\'' :: cs => (string? ('\'' :: cs)).map fun r => (r.1.map .text, r.2)
  | depth + 1, '[' :: cs =>
    (items? ']' (value? depth) cs).map fun r => ((r.1.mapM id).map (.array false), r.2)
  | depth + 1, '{' :: cs =>
    (items? '}' (assignment? (skipGap false) (value? depth)) cs).map fun r =>
      ((assignAll .inline [] r.1).map (.table .inline), r.2)
  | _, cs => Scalar.read? cs

inductive Line where
  | blank
  | assignment (a : Except Fault KeyValue)
  | header (h : Except Fault Header)

def headerEnd? (isItem : Bool) (cs : List Char) : Option (List Char) :=
  match isItem, skipSpaces cs with
  | false, ']' :: rest => some rest
  | true, ']' :: ']' :: rest => some rest
  | _, _ => none

def header? (isItem : Bool) : Reader (Except Fault Header) := fun cs => do
  let (key, rest) ← dottedKey? (skipSpaces cs)
  return (key.map fun k => ⟨k.1, k.2, isItem⟩, ← headerEnd? isItem rest)

def line? : Reader Line
  | [] => some (.blank, [])
  | '[' :: '[' :: cs => (header? true cs).map fun r => (.header r.1, r.2)
  | '[' :: cs => (header? false cs).map fun r => (.header r.1, r.2)
  | c :: cs =>
    if c = '#' ∨ c = '\n' ∨ c = '\r' then some (.blank, c :: cs)
    else (assignment? skipSpaces (value? depthLimit) (c :: cs)).map fun r => (.assignment r.1, r.2)

def skipComment (cs : List Char) : List Char :=
  match skipSpaces cs with
  | '#' :: rest => rest.dropWhile isPlain
  | rest => rest

def lines? (cs : List Char) : Option (List Line) :=
  match line? (skipSpaces cs) with
  | none => none
  | some (line, rest) =>
    match skipComment rest with
    | [] => some [line]
    | c :: rest =>
      match newline? (c :: rest) with
      | none => none
      | some next =>
        if next.length < cs.length then (lines? next).map (line :: ·) else none
termination_by cs.length

/-- The assignments up to the next header, and the headers with theirs. -/
def sections : List Line → List (Except Fault KeyValue) ×
    List (Except Fault Header × List (Except Fault KeyValue))
  | [] => ([], [])
  | .blank :: ls => sections ls
  | .assignment a :: ls =>
    let rest := sections ls
    (a :: rest.1, rest.2)
  | .header h :: ls =>
    let rest := sections ls
    ([], (h, rest.1) :: rest.2)

def skipByteOrderMark : List Char → List Char
  | '\uFEFF' :: cs => cs
  | cs => cs

def read (text : String) : Except Fault Fields :=
  match lines? (skipByteOrderMark text.toList) with
  | none => .error .malformed
  | some lines => do
    let parts := sections lines
    parts.2.foldlM (fun fs t => t.1.bind fun h => define fs h t.2)
      (← assignAll .header [] parts.1)

end DiagramText.Toml
