import DiagramText.Diagnostic.Code
import DiagramText.Span

/-!
# Diagnostics

A diagnostic is one error or warning with labelled spans. Diagnostics never
stop a run: they are collected in the order in which they are found, and a
list of them fails as a whole when one of them is an error.
-/

set_option autoImplicit false

namespace DiagramText

inductive Severity where
  | error
  | warning
  deriving DecidableEq, Repr

def Severity.text : Severity → String
  | .error => "error"
  | .warning => "warning"

/-- A message attached to a span. The primary label marks the problem itself,
the others related places. -/
structure Label where
  span : Span
  message : String
  primary : Bool := true
  deriving DecidableEq, Repr

structure Diagnostic where
  severity : Severity
  code : Option Code := none
  message : String
  labels : List Label := []
  help : Option String := none
  deriving DecidableEq, Repr

namespace Diagnostic

def isError (d : Diagnostic) : Bool := d.severity == .error

def isWarning (d : Diagnostic) : Bool := d.severity == .warning

def span? (d : Diagnostic) : Option Span := (d.labels.find? (·.primary)).map (·.span)

/-- `error[E103]: message`, without the bracket when there is no code. -/
def display (d : Diagnostic) : String :=
  d.severity.text ++
    (match d.code with
      | some c => "[" ++ c.text ++ "]"
      | none => "") ++
    ": " ++ d.message

def coded (severity : Severity) (code : Code) (message : String) (span : Span)
    (help : Option String := none) : Diagnostic :=
  ⟨severity, some code, message, [⟨span, code.description, true⟩], help⟩

def record (code : Code) (message : String) (span : Span) : Diagnostic :=
  coded .error code message span

def hasErrors (ds : List Diagnostic) : Bool := ds.any isError

def summary : List Diagnostic → String
  | [] => ""
  | [d] => d.display
  | d :: ds => d.display ++ " (+" ++ ds.length.repr ++ " more)"

def settle {α : Type} (value : α) (ds : List Diagnostic) : Except (List Diagnostic) α :=
  if hasErrors ds then .error ds else .ok value

end Diagnostic

end DiagramText
