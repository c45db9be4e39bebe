import PipelineTree.Command.Settings
import PipelineTree.Error.Recovery
import PipelineTree.Files.Directories
import PipelineTree.Platform.Registry

/-!
# Generate — documents from inputs

Each input is read, rendered and written, or printed in a dry run.  All inputs are tried, in order, and
each one is reported as it is done; what goes wrong with one of them does not touch the others.
-/

namespace PipelineTree

/-- What is to be generated, as said on the command line. -/
structure Target where
  inputs : List String
  outDir : Option Path
  maxDepth : Option Nat
  deriving DecidableEq, Repr

/-- A generated document. -/
structure Generated where
  input : Path
  output : Path
  platform : String
  text : String
  deriving DecidableEq, Repr

/-- How documents are generated. -/
structure GenerateOptions where
  /-- where documents go, unless beside their inputs -/
  outDir : Option Path
  depthLimit : Nat
  /-- whether documents are printed instead of written -/
  dryRun : Bool
  deriving DecidableEq, Repr

def Generated.ofText (options : GenerateOptions) (input : Path) (text : String) :
    Except Error Generated := do
  let root ← Document.load (Format.ofPath input) text
  match ← (Registry.builtin.render options.depthLimit root).result with
  | .rendered platform extension text =>
    pure ⟨input, input.output extension options.outDir, platform, text⟩
  | .empty => throw (.noOutput input.text)
  | .noRenderer kind => throw (.noRenderer input.text kind)

namespace Generate

/-- The options for a target, on top of the settings of a directory. -/
def optionsFor (target : Target) (directory : Path) (dryRun : Bool) : Attempt GenerateOptions := do
  let settings ← Settings.ofDirectory directory
  let merged := settings.merge ⟨target.outDir, target.maxDepth⟩
  pure ⟨merged.outDir, merged.depthLimit, dryRun⟩

def readInput (input : Path) : Attempt String := do
  match ← Attempt.perform (.read input) with
  | .ok text => pure text
  | .error fault => throw (.fileRead input.text fault.text)

def writeOutput (output : Path) (text : String) : Attempt Unit := do
  let failed := fun (fault : FileFault) => Error.fileWrite output.text fault.text
  match output.parent? with
  | some parent =>
    if !parent.text.isEmpty then
      match ← ExceptT.lift (Directories.make parent) with
      | .ok () => pure ()
      | .error fault => throw (failed fault)
  | none => pure ()
  match ← Attempt.perform (.write output text) with
  | .ok () => pure ()
  | .error fault => throw (failed fault)

def loadInput (input : Path) : Attempt (Node TemplateUse) := do
  let text ← readInput input
  Attempt.ofExcept (Document.load (Format.ofPath input) text)

def one (options : GenerateOptions) (input : Path) : Attempt Generated := do
  let text ← readInput input
  let generated ← Attempt.ofExcept (Generated.ofText options input text)
  if !options.dryRun then writeOutput generated.output generated.text
  pure generated

def report (options : GenerateOptions) (generated : Generated) : Script Unit :=
  if options.dryRun then do
    Script.printLine .output ("# " ++ generated.output.text)
    Script.print .output generated.text
  else
    Script.printLine .output
      s!"  ✓ {generated.input.text} → {generated.output.text} ({generated.platform})"

def advise (error : Error) : Script Unit :=
  match Recovery.ofError? error with
  | some recovery => Script.printLine .errors recovery.text
  | none => pure ()

def reportError (verbose : Bool) (input : Path) (error : Error) : Script Unit := do
  Script.printLine .errors s!"  ✗ {input.text}: {error.message}"
  if verbose then advise error

/-- Generates the document of one input and reports on it; the answer tells whether that succeeded. -/
def tryOne (options : GenerateOptions) (verbose : Bool) (input : Path) : Script Bool := do
  match ← (one options input).run with
  | .ok generated => do
    report options generated
    pure true
  | .error error => do
    reportError verbose input error
    pure false

def all (options : GenerateOptions) (verbose : Bool) (inputs : List Path) : Attempt Nat := do
  let succeeded ← ExceptT.lift (Script.forEach (tryOne options verbose) inputs)
  let failed := succeeded.count false
  if failed > 0 then throw (.batchFailed failed inputs.length) else pure inputs.length

def findInputs (patterns : List String) (directory : Path) : Attempt (List Path) :=
  tryCatch (Inputs.resolve patterns directory) fun error => do
    ExceptT.lift (advise error)
    throw error

def run (target : Target) (dryRun verbose : Bool) : Attempt Unit := do
  let directory ← Attempt.perform .location
  let options ← optionsFor target directory dryRun
  let inputs ← findInputs target.inputs directory
  let _ ← all options verbose inputs
  pure ()

end Generate

end PipelineTree
