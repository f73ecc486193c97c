import DiagramText.Grammar.Document
import DiagramText.Token.Scanner

/-!
# Parsing

Every text has a tree. Its diagnostics are those of the scanner followed by
those of the grammar, each group in the order of detection.
-/

set_option autoImplicit false

namespace DiagramText

structure Parse where
  tree : Tree
  diagnostics : List Diagnostic

def parseTokens (size : Nat) (tokens : List Token) : Parse :=
  let out := Grammar.document ⟨tokens, size⟩
  ⟨.node .document 0 out.trees, out.diagnostics⟩

def parse (text : String) : Parse :=
  let scan := tokenize text
  let result := parseTokens text.utf8ByteSize scan.1
  { result with diagnostics := scan.2 ++ result.diagnostics }

namespace Parse

def hasErrors (p : Parse) : Bool := Diagnostic.hasErrors p.diagnostics

def text (p : Parse) : String := p.tree.text

/-- The tree, or all diagnostics if one of them is an error. -/
def result (p : Parse) : Except (List Diagnostic) Tree := Diagnostic.settle p.tree p.diagnostics

def nodeCount (p : Parse) : Nat := p.tree.nodes.length

end Parse

end DiagramText
