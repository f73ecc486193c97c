import DiagramText.Failure

/-!
# Reports

What a user is shown of a failure: one report for each diagnostic, with the
source it points into, or a single report without a place.
-/

set_option autoImplicit false

namespace DiagramText

inductive Report where
  | diagnostic (d : Diagnostic) (source : String)
  | failure (f : Failure)

namespace Report

def title : Report → String
  | diagnostic d _ => d.message
  | failure f => f.message

def code? : Report → Option String
  | diagnostic d _ => d.code.map (·.text)
  | failure (.file _) => some "d2::io"
  | failure (.config _) => some "d2::config"
  | failure (.document _ _) => none

def severity? : Report → Option Severity
  | diagnostic d _ => some d.severity
  | failure _ => none

def help? : Report → Option String
  | diagnostic d _ => d.help
  | failure _ => none

def source? : Report → Option String
  | diagnostic _ source => some source
  | failure _ => none

def labels : Report → List Label
  | diagnostic d _ => d.labels
  | failure _ => []

end Report

def Failure.reports : Failure → List Report
  | .document ds source => ds.map (.diagnostic · source)
  | f => [.failure f]

end DiagramText
