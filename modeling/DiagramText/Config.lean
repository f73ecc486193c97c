import DiagramText.FileSystem
import DiagramText.Validation

/-!
# Configuration

A configuration switches checks on and off. It is looked up in a given file, in
the project, and in a file of the platform, in this order. How its text is
decoded is left open.
-/

set_option autoImplicit false

namespace DiagramText.Config

/-- The checks that the text of a configuration switches on, or why it cannot be used. -/
abbrev Decoder := String → Except String Checks

def projectPath : String := "d2/config.toml"

def loadFile (decode : Decoder) (fs : FileSystem) (path : String) : Except Failure Checks :=
  if fs.contains path then
    match fs.readText path with
    | .error fault => .error (.file fault)
    | .ok text =>
      match decode text with
      | .ok checks => .ok checks
      | .error reason => .error (.config (.malformed path reason))
  else .error (.config (.missing path))

def load (decode : Decoder) (fs : FileSystem) (platformPath explicitPath : Option String) :
    Except Failure Checks :=
  match explicitPath with
  | some path => loadFile decode fs path
  | none =>
    match (projectPath :: platformPath.toList).find? fs.contains with
    | some path => loadFile decode fs path
    | none => .ok {}

end DiagramText.Config
