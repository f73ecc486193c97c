import DiagramText.Diagnostic
import DiagramText.Style
import DiagramText.Tree.Statement

/-!
# Checks on a finished tree

The grammar takes any key and any value. These checks look at every property
of a tree, parents first: keys of a connection's block have to be keywords,
attributes of a style have to be known and their values acceptable, and
shapes have to be known. Each group of checks can be switched off.
-/

set_option autoImplicit false

namespace DiagramText

structure Checks where
  styles : Bool := true
  shapes : Bool := true
  deriving DecidableEq, Repr

def Checks.isEnabled (c : Checks) : Bool := c.styles || c.shapes

namespace Validation

/-- What owns the block in which a property stands. -/
inductive Owner where
  | nothing
  | property (path : List String)
  | connection
  deriving DecidableEq, Repr

def fullPath (owner : Owner) (key : Tree) : List String :=
  match owner with
  | .property path => path ++ key.segments
  | .nothing | .connection => key.keywordPath

def ownerBelow (owner : Owner) (t : Tree) : Owner :=
  match t.kind? with
  | some .property => .property ((t.key?.map (fullPath owner)).getD [])
  | some .shapeConnection => .connection
  | some .blockDefinition => owner
  | _ => .nothing

def checkConnectionKey (key : Tree) : List Diagnostic :=
  match key.segments with
  | [] => []
  | first :: _ =>
    if Keyword.isReserved first then []
    else [.coded .warning .unknownKeyword
      ("unknown keyword `" ++ first ++ "` in connection block") key.span]

def checkStyle (palette : Palette) (word : String) (key : Tree) (value? : Option Tree) :
    List Diagnostic :=
  match StyleAttribute.ofKeyword? word with
  | none =>
    [.coded .warning .unknownKeyword ("unknown style keyword `" ++ word ++ "`") key.span]
  | some style =>
    match value? with
    | none => []
    | some value =>
      match style.check palette value.cooked with
      | .ok () => []
      | .error fault =>
        [.coded .error .invalidStyleValue (fault.message style.keyword) value.span]

def checkShape (path : List String) (value? : Option Tree) : List Diagnostic :=
  match value? with
  | none => []
  | some value =>
    let arrowhead := path.any Keyword.isArrowhead
    let known :=
      if arrowhead then Keyword.isArrowheadShape value.cooked
      else Keyword.isShapeType value.cooked
    if known then []
    else
      let sort := if arrowhead then "arrowhead shape" else "shape type"
      [.coded .warning .unknownShapeType
        ("unknown " ++ sort ++ " `" ++ value.cooked ++ "`") value.span]

def styleAttribute? : List String → Option String
  | word :: rest =>
    if Text.sameFolded word "style" ∧ rest ≠ [] then some (".".intercalate rest) else none
  | [] => none

def endsInShape (path : List String) : Bool :=
  path.getLast?.any (Text.sameFolded · "shape")

def checkPath (palette : Palette) (checks : Checks) (path : List String) (key : Tree)
    (value? : Option Tree) : List Diagnostic :=
  match if checks.styles then styleAttribute? path else none with
  | some word => checkStyle palette word key value?
  | none => if checks.shapes && endsInShape path then checkShape path value? else []

def checkProperty (palette : Palette) (checks : Checks) (owner : Owner) (property : Tree) :
    List Diagnostic :=
  match property.key? with
  | none => []
  | some key =>
    (if checks.styles ∧ owner = .connection then checkConnectionKey key else []) ++
      checkPath palette checks (fullPath owner key) key property.value?

mutual

def diagnosticsUnder (palette : Palette) (checks : Checks) (owner : Owner) :
    Tree → List Diagnostic
  | .token _ => []
  | .node k s cs =>
    (if k = .property then checkProperty palette checks owner (.node k s cs) else []) ++
      diagnosticsAll palette checks (ownerBelow owner (.node k s cs)) cs

def diagnosticsAll (palette : Palette) (checks : Checks) (owner : Owner) :
    List Tree → List Diagnostic
  | [] => []
  | c :: cs =>
    diagnosticsUnder palette checks owner c ++ diagnosticsAll palette checks owner cs

end

end Validation

/-- The diagnostics of the checks, in document order. -/
def validate (palette : Palette) (checks : Checks) (t : Tree) : List Diagnostic :=
  Validation.diagnosticsUnder palette checks .nothing t

end DiagramText
