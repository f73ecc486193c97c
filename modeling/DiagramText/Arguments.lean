import DiagramText.Text.Search
import DiagramText.View

/-!
# Command-line arguments

Arguments name one input file and set options, in any order. An option takes
its value from the same word, after an equals sign or right after its letter,
or from the next word. After two hyphens every word is an input.
-/

set_option autoImplicit false

namespace DiagramText

structure Arguments where
  input : String
  view : View := .diagnostics
  output : Option String := none
  config : Option String := none
  logLevel : String := "info"
  deriving DecidableEq, Repr

namespace Arguments

inductive Refusal where
  | unknownArgument
  | invalidValue
  | repeatedOption
  | needlessValue
  | missingInput
  | helpWanted
  | versionWanted
  deriving DecidableEq, Repr

inductive Setting where
  | view
  | output
  | config
  | logLevel
  deriving DecidableEq, Repr

/-- What a name or a letter after hyphens stands for. -/
inductive Flag where
  | setting (s : Setting)
  | help
  | version
  deriving DecidableEq, Repr

def Flag.ofName? (name : String) : Option Flag :=
  if name = "emit" then some (.setting .view)
  else if name = "output" then some (.setting .output)
  else if name = "config" then some (.setting .config)
  else if name = "log-level" then some (.setting .logLevel)
  else if name = "help" then some .help
  else if name = "version" then some .version
  else none

def Flag.ofLetter? (c : Char) : Option Flag :=
  if c = 'e' then some (.setting .view)
  else if c = 'o' then some (.setting .output)
  else if c = 'c' then some (.setting .config)
  else if c = 'h' then some .help
  else if c = 'V' then some .version
  else none

structure Draft where
  input : Option String := none
  view : Option View := none
  output : Option String := none
  config : Option String := none
  logLevel : Option String := none
  pending : Option (Setting × Option String) := none
  inputsOnly : Bool := false

namespace Draft

def fill {α : Type} (old : Option α) (new : α) : Except Refusal (Option α) :=
  if old.isSome then .error .repeatedOption else .ok (some new)

def store (d : Draft) (value : String) : Setting → Except Refusal Draft
  | .view =>
    if d.view.isSome then .error .repeatedOption
    else
      match View.ofName? value with
      | some v => .ok { d with view := some v }
      | none => .error .invalidValue
  | .output => (fill d.output value).map fun v => { d with output := v }
  | .config => (fill d.config value).map fun v => { d with config := v }
  | .logLevel => (fill d.logLevel value).map fun v => { d with logLevel := v }

def settle (d : Draft) : Except Refusal Draft :=
  match d.pending with
  | none => .ok d
  | some (_, none) => .error .invalidValue
  | some (s, some value) => { d with pending := none }.store value s

def takeFlag (d : Draft) (value : Option String) (f : Flag) : Except Refusal Draft := do
  let d ← d.settle
  match f, value with
  | .setting s, some v => d.store v s
  | .setting s, none => .ok { d with pending := some (s, none) }
  | .help, _ => .error .helpWanted
  | .version, _ => .error .versionWanted

def takeNamed (d : Draft) (name : String) (value : Option String) : Except Refusal Draft :=
  match Flag.ofName? name, value with
  | none, _ => .error .unknownArgument
  | some .help, some _ | some .version, some _ => .error .needlessValue
  | some f, _ => d.takeFlag value f

def takeLetter (d : Draft) (c : Char) (rest : List Char) : Except Refusal Draft :=
  match Flag.ofLetter? c with
  | none => .error .unknownArgument
  | some f =>
    d.takeFlag
      (match rest with
        | [] => none
        | '=' :: value => some (.ofList value)
        | value => some (.ofList value))
      f

def takeInput (d : Draft) (word : String) : Except Refusal Draft :=
  if d.input.isSome then .error .unknownArgument
  else do
    let d ← d.settle
    .ok { d with input := some word }

def takePlain (d : Draft) (word : String) : Except Refusal Draft :=
  match d.pending with
  | some (s, none) => .ok { d with pending := some (s, some word) }
  | _ => d.takeInput word

def splitName (cs : List Char) : String × Option String :=
  let name := cs.takeWhile (· ≠ '=')
  (.ofList name,
    match cs.drop name.length with
    | _ :: value => some (.ofList value)
    | [] => none)

def takeWord (d : Draft) (word : String) : Except Refusal Draft :=
  if d.inputsOnly then d.takeInput word
  else
    match word.toList with
    | ['-', '-'] => .ok { d with inputsOnly := true }
    | '-' :: '-' :: cs => d.takeNamed (splitName cs).1 (splitName cs).2
    | '-' :: c :: cs => d.takeLetter c cs
    | _ => d.takePlain word

/-- The arguments, with defaults for what was left out. -/
def finish (d : Draft) : Except Refusal Arguments := do
  let d ← d.settle
  match d.input with
  | none => .error .missingInput
  | some input =>
    .ok ⟨input, d.view.getD .diagnostics, d.output, d.config, d.logLevel.getD "info"⟩

end Draft

def parse (words : List String) : Except Refusal Arguments := do
  (← words.foldlM Draft.takeWord {}).finish

end Arguments

end DiagramText
