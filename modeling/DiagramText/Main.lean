import DiagramText.Color.Reader
import DiagramText.Report
import DiagramText.Run
import DiagramText.Toml.Decoder

/-!
# The program

Pictures the files that a run may look at, runs the checker on the picture, and
makes on the machine the changes that the run made there. The decisions are all
made by `run`.
-/

set_option autoImplicit false

namespace DiagramText

def platformPath? (configHome home : Option String) : Option String :=
  (configHome.or (home.map (· ++ "/.config"))).map (· ++ "/d2/config.toml")

def Arguments.sources (args : Arguments) (platformPath : Option String) : List String :=
  args.input ::
    match args.config with
    | some path => [path]
    | none => Config.projectPath :: platformPath.toList

def loadSource (fs : FileSystem) (path : String) : IO FileSystem := do
  try
    return fs.put (fs.locate path) (← IO.FS.readBinFile path)
  catch _ => return fs

def isDirectory (path : String) : IO Bool := do
  try
    (← IO.FS.realPath path).isDir
  catch _ => return false

def Location.path (p : Location) : String := "/" ++ "/".intercalate p

def loadDirectories (fs : FileSystem) (path : String) : IO FileSystem := do
  let p := fs.locate path
  let found ← [p, p.dropLast].filterM fun d => isDirectory d.path
  return { fs with directories := found ++ fs.directories }

def Arguments.Refusal.message : Arguments.Refusal → String
  | .unknownArgument => "error: unexpected argument"
  | .invalidValue => "error: invalid value"
  | .repeatedOption => "error: an option cannot be used multiple times"
  | .needlessValue => "error: unexpected value"
  | .missingInput => "error: the input file was not provided"
  | .helpWanted => "Usage: d2-parse [OPTIONS] <INPUT>"
  | .versionWanted => "d2-parse"

def execute (args : Arguments) : IO UInt32 := do
  let platformPath := platformPath? (← IO.getEnv "XDG_CONFIG_HOME") (← IO.getEnv "HOME")
  let directory := FileSystem.names ((← IO.getEnv "PWD").getD "")
  let empty : FileSystem := { workingDirectory := directory.filter (· != "") }
  let sources ← (args.sources platformPath).foldlM loadSource empty
  let fs ← args.output.toList.foldlM loadDirectories sources
  let outcome := run Color.read Toml.decode platformPath args fs
  try
    for (p, content) in fs.changes outcome.files do IO.FS.writeBinFile p.path content
    if let some text := outcome.printed then IO.print text
    match outcome.failure with
    | none => return 0
    | some failure =>
      for report in failure.reports do IO.eprintln report.title
      return 1
  catch e =>
    IO.eprintln (Failure.file (.other e.toString)).message
    return 1

end DiagramText

/-- Exits with 2 if the arguments do not say what to run, and with 1 if the run fails. -/
def main (words : List String) : IO UInt32 :=
  match DiagramText.Arguments.parse words with
  | .ok args => DiagramText.execute args
  | .error refusal => do
    IO.eprintln refusal.message
    return if refusal = .helpWanted ∨ refusal = .versionWanted then 0 else 2
