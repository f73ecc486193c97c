import DiagramText.Arguments
import DiagramText.Config
import DiagramText.Session

/-!
# Running the checker

A run loads the configuration, reads the input, writes one view of it and
fails if the document has errors. Nothing is written before both files have
been read.
-/

set_option autoImplicit false

namespace DiagramText

structure Outcome where
  files : FileSystem
  printed : Option String := none
  failure : Option Failure := none

namespace Run

/-- Delivers a view to the output file or to the standard output. -/
def deliver (fs : FileSystem) (output : Option String) (view : String) : Except Failure Outcome :=
  match output with
  | none => .ok { files := fs, printed := some view }
  | some path =>
    match fs.writeText path view with
    | .ok files => .ok { files }
    | .error fault => .error (.file fault)

def inputs (decode : Config.Decoder) (platformPath : Option String) (args : Arguments)
    (fs : FileSystem) : Except Failure (Checks × String) := do
  let checks ← Config.load decode fs platformPath args.config
  match fs.readText args.input with
  | .ok text => .ok (checks, text)
  | .error fault => .error (.file fault)

end Run

def run (palette : Palette) (decode : Config.Decoder) (platformPath : Option String)
    (args : Arguments) (fs : FileSystem) : Outcome :=
  match Run.inputs decode platformPath args fs with
  | .error failure => { files := fs, failure := some failure }
  | .ok (checks, text) =>
    let p := analyze palette checks text
    match Run.deliver fs args.output (args.view.render args.input text p) with
    | .error failure => { files := fs, failure := some failure }
    | .ok outcome =>
      if p.hasErrors then { outcome with failure := some (.document p.diagnostics text) }
      else outcome

end DiagramText
