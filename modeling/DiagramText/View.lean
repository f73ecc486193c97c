import DiagramText.LineIndex
import DiagramText.Outline
import DiagramText.Parse
import DiagramText.Tree.Listing

/-!
# Views of a document

What can be printed of an analysed document: its tree, its diagnostics or its
outline.
-/

set_option autoImplicit false

namespace DiagramText

inductive View where
  | tree
  | diagnostics
  | outline
  deriving DecidableEq, Repr

namespace View

def name : View → String
  | tree => "tree"
  | diagnostics => "diagnostics"
  | outline => "outline"

def ofName? (s : String) : Option View := [tree, diagnostics, outline].find? (·.name == s)

def diagnosticLine (path : String) (text : List Char) (d : Diagnostic) : String :=
  match d.span? with
  | some span =>
    path ++ ":" ++ (LineIndex.position text span.start).display ++ ": " ++ d.display ++ "\n"
  | none => path ++ ": " ++ d.display ++ "\n"

def diagnosticLines (path text : String) (ds : List Diagnostic) : String :=
  String.join (ds.map (diagnosticLine path text.toList))

/-- The view of a document that was read from a path. -/
def render (path text : String) (p : Parse) : View → String
  | tree => p.tree.dump
  | diagnostics => diagnosticLines path text p.diagnostics
  | outline => (Outline.ofTree p.tree).display

end View

end DiagramText
