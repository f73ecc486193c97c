import DiagramText.Failure
import DiagramText.Text.Search

/-!
# Files

A file system holds the contents of files by their location. Directories
exist through the files below them or on their own, and the working directory
always does. A path is walked name by name, from the root if it starts with a
slash and from the working directory otherwise. Names and paths have a largest
size.
-/

set_option autoImplicit false

namespace DiagramText

abbrev Location := List String

structure FileSystem where
  workingDirectory : Location := []
  files : List (Location × ByteArray) := []
  directories : List Location := []

namespace FileSystem

def get? (fs : FileSystem) (p : Location) : Option ByteArray := fs.files.lookup p

def put (fs : FileSystem) (p : Location) (content : ByteArray) : FileSystem :=
  { fs with files := (p, content) :: fs.files.filter (·.1 != p) }

def isDirectory (fs : FileSystem) (p : Location) : Bool :=
  p.isPrefixOf fs.workingDirectory || fs.directories.any p.isPrefixOf ||
    fs.files.any fun f => p.isPrefixOf f.1 && p.length < f.1.length

/-- The names in a path, with empty names between slashes. -/
def names (path : String) : List String := (Text.pieces '/' path.toList).map String.ofList

def step (p : Location) (name : String) : Location :=
  if name = "" ∨ name = "." then p
  else if name = ".." then p.dropLast
  else p ++ [name]

def start (fs : FileSystem) (path : String) : Location :=
  if path.toList.head? = some '/' then [] else fs.workingDirectory

def locate (fs : FileSystem) (path : String) : Location :=
  (names path).foldl step (fs.start path)

def nameLimit : Nat := 255

def pathLimit : Nat := 4095

/-- Walks on from a location. Every name but the last has to lead to a directory. -/
def walk (fs : FileSystem) : Location → List String → Except FileFault Location
  | p, [] => .ok p
  | p, name :: rest =>
    if fs.isDirectory p then
      if nameLimit < name.utf8ByteSize then .error .nameTooLong
      else fs.walk (step p name) rest
    else .error (if (fs.get? p).isSome then .notDirectory else .notFound)

def pathFault? (path : String) : Option FileFault :=
  if path.toList.contains '\x00' then some .endedPath
  else if path = "" then some .notFound
  else if pathLimit < path.utf8ByteSize then some .nameTooLong
  else none

/-- The location that a path leads to. A file need not be there, its directory has to be. -/
def resolve (fs : FileSystem) (path : String) : Except FileFault Location :=
  match pathFault? path with
  | some fault => .error fault
  | none => fs.walk (fs.start path) (names path)

def contains (fs : FileSystem) (path : String) : Bool :=
  match fs.resolve path with
  | .ok p => (fs.get? p).isSome || fs.isDirectory p
  | .error _ => false

def read (fs : FileSystem) (path : String) : Except FileFault ByteArray := do
  let p ← fs.resolve path
  match fs.get? p with
  | some content => .ok content
  | none => .error (if fs.isDirectory p then .isDirectory else .notFound)

def readText (fs : FileSystem) (path : String) : Except FileFault String := do
  match String.fromUTF8? (← fs.read path) with
  | some text => .ok text
  | none => .error .notUtf8

def beforeSlashed? (path : String) : Option (List String) :=
  let ns := (names path).reverse
  match ns.dropWhile (· = "") with
  | last :: before =>
    if ns.head? = some "" ∧ last ≠ "." ∧ last ≠ ".." then some before.reverse else none
  | [] => none

def resolveTarget (fs : FileSystem) (path : String) : Except FileFault Location :=
  match pathFault? path, beforeSlashed? path with
  | some fault, _ => .error fault
  | none, some before =>
    (fs.walk (fs.start path) (before ++ [""])).bind fun _ => .error .isDirectory
  | none, none => fs.walk (fs.start path) (names path)

def writeText (fs : FileSystem) (path text : String) : Except FileFault FileSystem := do
  let p ← fs.resolveTarget path
  if fs.isDirectory p then .error .isDirectory else .ok (fs.put p text.toUTF8)

def changes (before after : FileSystem) : List (Location × ByteArray) :=
  after.files.filter fun f =>
    (after.get? f.1).map ByteArray.data ≠ (before.get? f.1).map ByteArray.data

theorem get?_put (fs : FileSystem) (p q : Location) (content : ByteArray) :
    (fs.put p content).get? q = if q = p then some content else fs.get? q := by
  by_cases h : q = p
  · subst h
    simp [get?, put]
  · rw [if_neg h]
    have hq : (q == p) = false := by simpa using h
    simp only [get?, put, List.lookup_cons, hq]
    induction fs.files with
    | nil => rfl
    | cons f fs ih =>
      obtain ⟨r, y⟩ := f
      by_cases hr : r = p
      · subst hr
        rw [List.filter_cons_of_neg (by simp), ih, List.lookup_cons, hq]
      · rw [List.filter_cons_of_pos (by simpa using hr), List.lookup_cons, List.lookup_cons, ih]

end FileSystem

end DiagramText
