import DiagramText.Config
import DiagramText.Toml.Document

/-!
# Configurations in TOML

A configuration is a TOML document whose table `validate` switches checks on
and off. What it does not mention stays switched on. A message about a malformed
document goes on with the place of the fault, which is left out here.
-/

set_option autoImplicit false

namespace DiagramText.Toml

def switch? : Option Value → Option Bool
  | none => some true
  | some (.boolean b) => some b
  | some _ => none

def othersFit (known : List String) (fields : Fields) : Bool :=
  fields.all fun f => known.any (·.toList == f.1) || f.2.fits

/-- The checks that a value switches on. They may be listed in order instead of named, and a
moment names none. Fields that mean nothing here still have to fit, listed items need not. -/
def checks? : Value → Option Checks
  | .table _ fields => do
    guard (othersFit ["styles", "shapes"] fields)
    return ⟨← switch? (fields.lookup "styles".toList), ← switch? (fields.lookup "shapes".toList)⟩
  | .array _ items => do return ⟨← switch? items[0]?, ← switch? items[1]?⟩
  | .moment => some {}
  | _ => none

def ofFields? (fields : Fields) : Option Checks := do
  guard (othersFit ["validate"] fields)
  match fields.lookup "validate".toList with
  | none => some {}
  | some v => checks? v

def Fault.message : Fault → String
  | malformed => "TOML parse error"
  | tooDeep => "recursion limit\n"

def decode : Config.Decoder := fun text =>
  match read text with
  | .ok fields =>
    match ofFields? fields with
    | some checks => .ok checks
    | none => .error Fault.malformed.message
  | .error f => .error f.message

end DiagramText.Toml
