import PipelineTree.Command.Generate

/-!
# Watch — documents kept up to date

Watching starts with a banner and a first round; each round resolves the inputs anew and generates
their documents.  What goes wrong in a round is reported and does not end the watch.
-/

namespace PipelineTree

/-- A watch: what is generated in each round, and how. -/
structure Watch where
  target : Target
  directory : Path
  options : GenerateOptions
  verbose : Bool

namespace Watch

def banner (debounce : Nat) : List String :=
  [ "Starting watch mode...",
    s!"Watching for changes (debounce: {debounce}ms)",
    "Press Ctrl+C to exit.",
    "" ]

def start (target : Target) (debounce : Nat) (verbose : Bool) : Attempt Watch := do
  let directory ← Attempt.perform .location
  let options ← Generate.optionsFor target directory false
  let _ ← ExceptT.lift (Script.forEach (Script.printLine .output) (banner debounce))
  pure ⟨target, directory, options, verbose⟩

/-- A time in milliseconds, as seconds with two places. -/
def secondsText (milliseconds : Nat) : String :=
  let hundredths := (milliseconds + 5) / 10
  let places := toString (hundredths % 100)
  toString (hundredths / 100) ++ "." ++ (if places.length < 2 then "0" ++ places else places)

def round (watch : Watch) : Script Unit := do
  let began ← Script.perform .clock
  match ← (Inputs.resolve watch.target.inputs watch.directory).run with
  | .error error => Script.printLine .errors s!"Failed to resolve inputs: {error.message}"
  | .ok inputs =>
    match ← (Generate.all watch.options watch.verbose inputs).run with
    | .ok count =>
      let ended ← Script.perform .clock
      Script.printLine .output
        s!"Generation completed ({count} file(s), {secondsText (ended - began)}s)"
    | .error error => Script.printLine .errors s!"Generation failed: {error.message}"

/-! ## Changes -/

/-- Whether a change calls for a new round; generated documents do not. -/
def isRelevant (path : Path) : Bool := !path.isGenerated

def changeLines (verbose : Bool) (changed : List Path) : List String :=
  [ "",
    String.ofList (List.replicate 50 '─'),
    s!"Change detected: {changed.length} file(s) changed" ] ++
  (if verbose then changed.map fun path => "  " ++ path.text else []) ++ [""]

/-- A new round after changes, unless none of them is relevant. -/
def again (watch : Watch) (changed : List Path) : Script Unit := do
  let relevant := changed.filter isRelevant
  if relevant.isEmpty then pure ()
  else
    let _ ← Script.forEach (Script.printLine .output) (changeLines watch.verbose relevant)
    watch.round

end Watch

end PipelineTree
