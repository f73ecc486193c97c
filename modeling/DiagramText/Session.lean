import DiagramText.Cache
import DiagramText.Failure
import DiagramText.Outline
import DiagramText.Parse
import DiagramText.Validation

/-!
# Analysing documents

An analysis parses a text and runs the checks that are switched on. A session
holds the checks and a cache of analyses.
-/

set_option autoImplicit false

namespace DiagramText

def analyze (palette : Palette) (checks : Checks) (text : String) : Parse :=
  let p := parse text
  { p with diagnostics := p.diagnostics ++ validate palette checks p.tree }

def check (palette : Palette) (checks : Checks) (text : String) : Except Failure Parse :=
  let p := analyze palette checks text
  if p.hasErrors then .error (.document p.diagnostics text) else .ok p

structure Session where
  checks : Checks := {}
  cache : Cache Parse := {}

namespace Session

def analyzeBy {δ : Type} [DecidableEq δ] (palette : Palette) (digest : String → δ) (s : Session)
    (document text : String) : Cache.Answer Parse :=
  s.cache.getBy digest document text (DiagramText.analyze palette s.checks)

/-- The analysis of a document's text, from the cache if the text is unchanged. -/
def analyze (palette : Palette) (s : Session) (document text : String) : Cache.Answer Parse :=
  s.analyzeBy palette id document text

end Session

end DiagramText
