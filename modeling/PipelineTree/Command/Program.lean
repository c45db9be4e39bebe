import PipelineTree.Command.Arguments
import PipelineTree.Command.Watch

/-!
# Program — from a command line to an exit code

The program reads its command line, goes to the directory it names and carries out the command.  It ends
with 0 if all went well, with 1 after an error and with 2 if the command line is not understood.
-/

namespace PipelineTree

namespace Program

def version : String := "pipeweave 0.1.0"

def usage : List String :=
  [ "Compile pipeline trees into CI platform YAML",
    "",
    "Usage: pipeweave [OPTIONS] <COMMAND>",
    "",
    "Commands:",
    "  generate   Generate CI documents from tree files",
    "  watch      Watch mode - regenerate on file changes",
    "  platforms  List supported platforms",
    "  help       Print this message or the help of the given subcommand(s)",
    "",
    "Options:",
    "  -v, --verbose          Enable verbose output",
    "  -C, --directory <DIR>  Change to directory before executing",
    "  -h, --help             Print help",
    "  -V, --version          Print version",
    "",
    "Examples:",
    "pipeweave generate ci.yaml              Write ci.generated.yml beside the input",
    "pipeweave generate 'pipelines/*.yaml'   Generate every matching tree",
    "pipeweave watch ci.yaml                 Regenerate on file changes",
    "pipeweave platforms                     List supported platforms",
    "",
    "See 'pipeweave <command> --help' for more information on a specific command." ]

def printLines (channel : Channel) (lines : List String) : Script Unit := do
  let _ ← Script.forEach (Script.printLine channel) lines
  pure ()

def refuse (error : ArgumentError) : Script Nat := do
  match error with
  | .help =>
    printLines .output usage
    pure 0
  | .version =>
    printLines .output [version]
    pure 0
  | .nothing =>
    printLines .errors usage
    pure 2
  | error =>
    printLines .errors ["error: " ++ error.text]
    pure 2

/-- Why the program fails. -/
inductive Failure where
  | noDirectory (directory : Path) (fault : FileFault)
  | command (error : Error)
  deriving DecidableEq, Repr

def Failure.message : Failure → String
  | .noDirectory directory fault =>
    s!"Failed to change to directory '{directory.text}': {fault.text}"
  | .command error => error.message

def enter (directory : Option Path) : Script (Except Failure Unit) := do
  match directory with
  | none => pure (.ok ())
  | some directory =>
    match ← Script.perform (.enter directory) with
    | .ok () => pure (.ok ())
    | .error fault => pure (.error (.noDirectory directory fault))

/-- Carries out a command; a watch is left with after its first round. -/
def carryOut (command : Command) (verbose : Bool) : Attempt (Option Watch) :=
  match command with
  | .generate target dryRun => do
    Generate.run target dryRun verbose
    pure none
  | .platforms format => do
    ExceptT.lift (Platforms.run format verbose)
    pure none
  | .watch target debounce => do
    let watch ← Watch.start target debounce verbose
    ExceptT.lift watch.round
    pure (some watch)

/-- How the program goes on: it ends with a code, or watches in rounds. -/
inductive Outcome where
  | exit (code : Nat)
  | watching (watch : Watch) (debounce : Nat)

def fail (failure : Failure) : Script Outcome := do
  Script.printLine .errors ("Error: " ++ failure.message)
  pure (.exit 1)

def run (arguments : List String) (environment : Environment) : Script Outcome := do
  match Invocation.ofArguments arguments environment with
  | .error error => do
    let code ← refuse error
    pure (.exit code)
  | .ok invocation => do
    match ← enter invocation.directory with
    | .error failure => fail failure
    | .ok () =>
      match ← (carryOut invocation.command invocation.verbose).run, invocation.command with
      | .error error, _ => fail (.command error)
      | .ok (some watch), .watch _ debounce => pure (.watching watch debounce)
      | .ok _, _ => pure (.exit 0)

end Program

end PipelineTree
