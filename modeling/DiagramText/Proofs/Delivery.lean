import DiagramText.Color.Reader
import DiagramText.Proofs.Severities
import DiagramText.Run
import DiagramText.Toml.Decoder

/-!
# What a run leaves behind

A run that cannot load its configuration or read its input ends there and
leaves every file as it was. Any other run sends the whole view to its output,
also that of a document with errors, and touches no other file. Its failure is
that of the check of the same text with the same checks.
-/

set_option autoImplicit false

namespace DiagramText.Delivery
open FileSystem Run

def Writable (fs : FileSystem) (output : Option String) : Prop :=
  ∀ path, output = some path → ∃ p, fs.resolveTarget path = .ok p ∧ fs.isDirectory p = false

def Received (fs : FileSystem) (output : Option String) (view : String) (o : Outcome) : Prop :=
  match output with
  | none => o.printed = some view ∧ o.files = fs
  | some path => o.printed = none ∧ o.files.workingDirectory = fs.workingDirectory ∧
      o.files.directories = fs.directories ∧ ∃ p, fs.resolveTarget path = .ok p ∧
        ∀ q, o.files.get? q = if q = p then some view.toUTF8 else fs.get? q

/-- The file that is loaded: the one that was given, else that of the project if it is there, else
that of the platform if it is there. -/
inductive LookedUp (fs : FileSystem) (platformPath : Option String) :
    Option String → String → Prop where
  | given (path : String) : LookedUp fs platformPath (some path) path
  | project (found : fs.contains Config.projectPath = true) :
      LookedUp fs platformPath none Config.projectPath
  | platform {path : String} (lost : fs.contains Config.projectPath = false)
      (place : platformPath = some path) (found : fs.contains path = true) :
      LookedUp fs platformPath none path

def Loads (decode : Config.Decoder) (fs : FileSystem) (platformPath explicitPath : Option String)
    (checks : Checks) : Prop :=
  (∃ path text, LookedUp fs platformPath explicitPath path ∧ fs.readText path = .ok text ∧
    decode text = .ok checks) ∨
  (∀ path, ¬LookedUp fs platformPath explicitPath path) ∧ checks = {}

section

variable {palette : Palette} {decode : Config.Decoder} {platformPath : Option String}
  {args : Arguments} {fs : FileSystem}

theorem read_contains {path text : String} (h : fs.readText path = .ok text) :
    fs.contains path = true := by
  unfold readText FileSystem.read at h
  unfold contains
  cases hp : fs.resolve path with
  | error fault => simp [hp, bind, Except.bind] at h
  | ok p =>
    cases hg : fs.get? p with
    | none => simp [hp, hg, bind, Except.bind] at h
    | some content => simp [hg]

theorem file_loads {path : String} {checks : Checks} :
    Config.loadFile decode fs path = .ok checks ↔
      ∃ text, fs.readText path = .ok text ∧ decode text = .ok checks := by
  constructor
  · intro h
    unfold Config.loadFile at h
    split at h
    · split at h
      · simp at h
      · next text hr =>
        split at h
        · next hd =>
          obtain rfl := Except.ok.inj h
          exact ⟨text, hr, hd⟩
        · simp at h
    · simp at h
  · rintro ⟨text, hr, hd⟩
    simp only [Config.loadFile, read_contains hr, hr, hd, if_true]

theorem standard_iff {path : String} :
    (Config.projectPath :: platformPath.toList).find? fs.contains = some path ↔
      LookedUp fs platformPath none path := by
  constructor
  · intro h
    rw [List.find?_cons] at h
    split at h
    · next hfound =>
      obtain rfl : Config.projectPath = path := by simpa using h
      exact .project hfound
    · next hlost =>
      cases platformPath with
      | none => simp at h
      | some q =>
        have hfound := List.find?_some h
        obtain rfl : path = q := by simpa using List.mem_of_find?_eq_some h
        exact .platform (by simpa using hlost) rfl hfound
  · rintro (⟨⟩ | hfound | ⟨hlost, rfl, hfound⟩)
    · simp [hfound]
    · simp [hlost, hfound]

theorem load_iff {explicitPath : Option String} {checks : Checks} :
    Config.load decode fs platformPath explicitPath = .ok checks ↔
      Loads decode fs platformPath explicitPath checks := by
  unfold Config.load Loads
  cases explicitPath with
  | some path =>
    rw [file_loads]
    constructor
    · rintro ⟨text, hr, hd⟩
      exact .inl ⟨path, text, .given path, hr, hd⟩
    · rintro (⟨_, text, hup, hr, hd⟩ | ⟨hnone, -⟩)
      · cases hup
        exact ⟨text, hr, hd⟩
      · exact absurd (.given path) (hnone path)
  | none =>
    cases hfind : (Config.projectPath :: platformPath.toList).find? fs.contains with
    | none =>
      have hnone (path : String) : ¬LookedUp fs platformPath none path := fun h => by
        rw [← standard_iff, hfind] at h
        simp at h
      constructor
      · intro h
        exact .inr ⟨hnone, (Except.ok.inj h).symm⟩
      · rintro (⟨path, -, hup, -⟩ | ⟨-, rfl⟩)
        · exact absurd hup (hnone path)
        · rfl
    | some found =>
      have hup := standard_iff.mp hfind
      simp only [file_loads]
      constructor
      · rintro ⟨text, hr, hd⟩
        exact .inl ⟨found, text, hup, hr, hd⟩
      · rintro (⟨path, text, hother, hr, hd⟩ | ⟨hnone, -⟩)
        · obtain rfl : found = path :=
            Option.some.inj (hfind.symm.trans (standard_iff.mpr hother))
          exact ⟨text, hr, hd⟩
        · exact absurd hup (hnone found)

theorem inputs_config {f : Failure}
    (h : Config.load decode fs platformPath args.config = .error f) :
    inputs decode platformPath args fs = .error f := by
  rw [inputs, h]
  rfl

theorem inputs_input {checks : Checks} {fault : FileFault}
    (hc : Config.load decode fs platformPath args.config = .ok checks)
    (h : fs.readText args.input = .error fault) :
    inputs decode platformPath args fs = .error (.file fault) := by
  simp [inputs, hc, h, bind, Except.bind]

theorem inputs_read {checks : Checks} {text : String}
    (hc : Config.load decode fs platformPath args.config = .ok checks)
    (h : fs.readText args.input = .ok text) :
    inputs decode platformPath args fs = .ok (checks, text) := by
  simp [inputs, hc, h, bind, Except.bind]

theorem run_refused {f : Failure} (h : inputs decode platformPath args fs = .error f) :
    run palette decode platformPath args fs = { files := fs, failure := some f } := by
  rw [run, h]

theorem write_received {path view : String} {p : Location} (hp : fs.resolveTarget path = .ok p)
    (hd : fs.isDirectory p = false) : fs.writeText path view = .ok (fs.put p view.toUTF8) := by
  simp [writeText, hp, hd, bind, Except.bind]

theorem deliver_received (view : String) (hw : Writable fs args.output) :
    ∃ o, deliver fs args.output view = .ok o ∧ o.failure = none ∧
      Received fs args.output view o := by
  unfold deliver Received
  cases ho : args.output with
  | none => exact ⟨_, rfl, rfl, rfl, rfl⟩
  | some path =>
    obtain ⟨p, hp, hd⟩ := hw path ho
    refine ⟨{ files := fs.put p view.toUTF8 }, ?_, rfl, rfl, rfl, rfl, p, hp, fun q => ?_⟩
    · simp only [write_received hp hd]
    · exact get?_put fs p q _

theorem run_delivered {checks : Checks} {text : String} {o : Outcome}
    (hi : inputs decode platformPath args fs = .ok (checks, text))
    (hd : deliver fs args.output
      (args.view.render args.input text (analyze palette checks text)) = .ok o) :
    run palette decode platformPath args fs =
      if (analyze palette checks text).hasErrors then
        { o with failure := some (.document (analyze palette checks text).diagnostics text) }
      else o := by
  simp only [run, hi, hd]

def OnlyOutput (fs : FileSystem) (output : Option String) (after : FileSystem) : Prop :=
  after = fs ∨ ∃ path p content, output = some path ∧ fs.resolveTarget path = .ok p ∧
    after = fs.put p content

theorem deliver_only {output : Option String} {view : String} {o : Outcome}
    (h : deliver fs output view = .ok o) : OnlyOutput fs output o.files := by
  unfold deliver at h
  cases output with
  | none =>
    cases h
    exact .inl rfl
  | some path =>
    unfold writeText at h
    cases hp : fs.resolveTarget path with
    | error fault => simp [hp, bind, Except.bind] at h
    | ok p =>
      cases hd : fs.isDirectory p with
      | true => simp [hp, hd, bind, Except.bind] at h
      | false =>
        obtain rfl : { files := fs.put p view.toUTF8 } = o := by
          simpa [hp, hd, bind, Except.bind] using h
        exact .inr ⟨path, p, _, rfl, hp, rfl⟩

theorem run_only : OnlyOutput fs args.output (run palette decode platformPath args fs).files := by
  cases hi : inputs decode platformPath args fs with
  | error f =>
    rw [run_refused hi]
    exact .inl rfl
  | ok source =>
    obtain ⟨checks, text⟩ := source
    cases hd : deliver fs args.output
        (args.view.render args.input text (analyze palette checks text)) with
    | error f =>
      simp only [run, hi, hd]
      exact .inl rfl
    | ok o =>
      have honly := deliver_only hd
      rw [run_delivered hi hd]
      split <;> exact honly

theorem run_changes {f : Location × ByteArray}
    (h : f ∈ fs.changes (run palette decode platformPath args fs).files) :
    ∃ path, args.output = some path ∧ fs.resolveTarget path = .ok f.1 := by
  rw [changes, List.mem_filter, decide_eq_true_eq] at h
  rcases @run_only palette decode platformPath args fs with hsame | ⟨path, p, _, ho, hp, hput⟩
  · exact absurd (congrArg (fun fs => (fs.get? f.1).map ByteArray.data) hsame) h.2
  · rw [hput, get?_put] at h
    by_cases hf : f.1 = p
    · exact ⟨path, ho, hf ▸ hp⟩
    · exact absurd (congrArg _ (if_neg hf)) h.2

theorem check_failure {checks : Checks} {text : String} {f : Failure} :
    check palette checks text = .error f ↔ (analyze palette checks text).hasErrors = true ∧
      f = .document (analyze palette checks text).diagnostics text := by
  cases h : (analyze palette checks text).hasErrors with
  | false => simp [check, h]
  | true => simp [check, h, eq_comm]

end

/-- The output received the view that was asked for: the listing of the tree, a line for each
diagnostic, or the outline. -/
structure Shown (palette : Palette) (args : Arguments) (fs : FileSystem) (checks : Checks)
    (text : String) (o : Outcome) : Prop where
  tree : args.view = .tree → Received fs args.output (parse text).tree.dump o
  diagnostics : args.view = .diagnostics → Received fs args.output
    (String.join ((analyze palette checks text).diagnostics.map
      (View.diagnosticLine args.input text.toList))) o
  outline : args.view = .outline →
    Received fs args.output (Outline.ofTree (parse text).tree).display o

theorem received_shown {palette : Palette} {args : Arguments} {fs : FileSystem} {checks : Checks}
    {text : String} {o : Outcome} (h : Received fs args.output
      (args.view.render args.input text (analyze palette checks text)) o) :
    Shown palette args fs checks text o := by
  constructor <;> intro hview <;> rw [hview] at h <;> exact h

/-- A run stops at the first of the configuration and the input that cannot be had, with every
file as it was. Otherwise the output, if it can be written, receives the view and nothing else
changes, and the run fails just as the check of the text does with the checks that are loaded. -/
theorem run_agrees (palette : Palette) (decode : Config.Decoder) (platformPath : Option String)
    (args : Arguments) (fs : FileSystem) :
    (∀ checks, Config.load decode fs platformPath args.config = .ok checks ↔
      Loads decode fs platformPath args.config checks) ∧
    (∀ f, Config.load decode fs platformPath args.config = .error f →
      run palette decode platformPath args fs = { files := fs, failure := some f }) ∧
    (∀ checks fault, Config.load decode fs platformPath args.config = .ok checks →
      fs.readText args.input = .error fault →
      run palette decode platformPath args fs = { files := fs, failure := some (.file fault) }) ∧
    (∀ checks text, Config.load decode fs platformPath args.config = .ok checks →
      fs.readText args.input = .ok text → Writable fs args.output →
      Shown palette args fs checks text (run palette decode platformPath args fs) ∧
      ((run palette decode platformPath args fs).failure = none ↔
        ∃ p, check palette checks text = .ok p) ∧
      ∀ f, check palette checks text = .error f →
        (run palette decode platformPath args fs).failure = some f ∧ ∃ ds, f = .document ds text) ∧
    ∀ checks text, (∃ p, check palette checks text = .ok p) ↔ (parse text).diagnostics = [] ∧
      ∀ d ∈ validate palette checks (parse text).tree, d.code ≠ some .invalidStyleValue := by
  refine ⟨fun _ => load_iff, ?_, ?_, ?_, Severities.check_passes palette⟩
  · intro f hc
    exact run_refused (inputs_config hc)
  · intro checks fault hc hr
    exact run_refused (inputs_input hc hr)
  · intro checks text hc hr hw
    obtain ⟨o, hd, hnone, hreceived⟩ :=
      deliver_received (args.view.render args.input text (analyze palette checks text)) hw
    rw [run_delivered (inputs_read hc hr) hd, Severities.check_settles]
    by_cases he : (analyze palette checks text).hasErrors = true
    · rw [if_pos he]
      refine ⟨received_shown hreceived, by simp [he], ?_⟩
      intro f hf
      obtain ⟨-, rfl⟩ := check_failure.mp hf
      exact ⟨rfl, _, rfl⟩
    · rw [if_neg he]
      refine ⟨received_shown hreceived, by simp [he, hnone], ?_⟩
      intro f hf
      exact absurd (check_failure.mp hf).1 he

def desk : FileSystem := { files := [(["in"], "x ->".toUTF8), (["kept"], "y".toUTF8)] }

theorem desk_runs_agree :
    run Color.read Toml.decode none { input := "in", config := some "lost.toml" } desk =
        { files := desk, failure := some (.config (.missing "lost.toml")) } ∧
      run Color.read Toml.decode none { input := "lost" } desk =
        { files := desk, failure := some (.file .notFound) } ∧
      Received desk (some "out") "in:1:5: error[E103]: expected a shape after `->`\n"
        (run Color.read Toml.decode none { input := "in", output := some "out" } desk) ∧
      Received desk none "shapes:\n  x\nedges:\n"
        (run Color.read Toml.decode none { input := "in", view := .outline } desk) ∧
      (run Color.read Toml.decode none { input := "in", output := some "out" } desk).failure =
        some (.document (analyze Color.read {} "x ->").diagnostics "x ->") := by
  have hwritable : Writable desk (some "out") := by
    rintro path ⟨⟩
    exact ⟨["out"], rfl, rfl⟩
  obtain ⟨-, hconfig, -⟩ :=
    run_agrees Color.read Toml.decode none { input := "in", config := some "lost.toml" } desk
  obtain ⟨-, -, hinput, -⟩ := run_agrees Color.read Toml.decode none { input := "lost" } desk
  obtain ⟨-, -, -, hwritten, -⟩ :=
    run_agrees Color.read Toml.decode none { input := "in", output := some "out" } desk
  obtain ⟨-, -, -, hprinted, -⟩ :=
    run_agrees Color.read Toml.decode none { input := "in", view := .outline } desk
  obtain ⟨hlines, -, hfailure⟩ := hwritten {} "x ->" rfl rfl hwritable
  obtain ⟨houtline, -⟩ := hprinted {} "x ->" rfl rfl (by rintro path ⟨⟩)
  have herror : check Color.read {} "x ->" =
      .error (.document (analyze Color.read {} "x ->").diagnostics "x ->") :=
    check_failure.mpr ⟨by decide +kernel, rfl⟩
  refine ⟨hconfig _ rfl, hinput {} _ rfl rfl, ?_, ?_, (hfailure _ herror).1⟩
  · have htext : String.join ((analyze Color.read {} "x ->").diagnostics.map
        (View.diagnosticLine "in" "x ->".toList)) =
        "in:1:5: error[E103]: expected a shape after `->`\n" := by decide +kernel
    exact htext ▸ hlines.diagnostics rfl
  · have htext : (Outline.ofTree (parse "x ->").tree).display = "shapes:\n  x\nedges:\n" := by
      decide +kernel
    exact htext ▸ houtline.outline rfl

end DiagramText.Delivery
