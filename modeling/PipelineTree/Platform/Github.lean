import PipelineTree.Expansion.Leaves
import PipelineTree.Platform.Compiler

/-!
# Github — workflows

A workflow has one level: the jobs among its expanded children become the entries of `jobs`, each under
its id.  A job without an id is named by its position among the jobs.
-/

namespace PipelineTree

namespace Github

variable {ρ : Type} [ExpansionRule ρ]

def workflowFields : List String :=
  ["name", "runName", "on", "permissions", "env", "defaults", "concurrency"]

def jobFields : List String :=
  [ "name", "needs", "if", "runsOn", "environment", "permissions", "concurrency", "outputs", "env",
    "defaults", "strategy", "container", "services", "timeoutMinutes", "continueOnError", "uses",
    "with", "secrets" ]

def stepFields : List String :=
  [ "id", "name", "if", "uses", "run", "shell", "with", "env", "workingDirectory",
    "continueOnError", "timeoutMinutes" ]

def renames : RenameTable :=
  [ ("runName", "run-name"),
    ("runsOn", "runs-on"),
    ("timeoutMinutes", "timeout-minutes"),
    ("continueOnError", "continue-on-error"),
    ("workingDirectory", "working-directory"),
    ("cancelInProgress", "cancel-in-progress"),
    ("failFast", "fail-fast"),
    ("maxParallel", "max-parallel"),
    ("pathsIgnore", "paths-ignore"),
    ("branchesIgnore", "branches-ignore"),
    ("tagsIgnore", "tags-ignore"),
    ("pullRequests", "pull-requests"),
    ("idToken", "id-token"),
    ("securityEvents", "security-events") ]

def stepRules : StepRules := ⟨"uses", "run", ["name", "id"]⟩

/-- The id of the job at a position: its scalar `id`, or one made from the position. -/
def jobId (position : Nat) (props : Props) : Except Error String :=
  match props.value? "id" with
  | none => .ok s!"job-{position}"
  | some (.text id) => .ok id
  | some (.number id) => .ok id.text
  | some (.bool id) => .ok (boolText id)
  | some _ => .error (.validation s!"job #{position}" "'id' must be a scalar")

def stepValue (step : Primitive ρ) : Value := .mapping (step.props.select stepFields)

/-- A job's document from its steps. A job that calls another workflow and has no steps lists none. -/
def jobValue (props : Props) (steps : List (Primitive ρ)) : Value :=
  if steps.isEmpty && props.sets "uses" then .mapping (props.select jobFields)
  else documentWith (props.select jobFields) "steps" (.sequence (steps.map stepValue))

def compileJob (limit : Nat) (id : String) (job : Primitive ρ) : Run Value := do
  let leaves ← collectLeaves limit .githubStep job.children
  let steps ← stepRules.enabled s!"job '{id}'" leaves
  pure (jobValue job.props steps)

/-- Compiles jobs from a position on, given the entries of those before. -/
def compileJobs (limit : Nat) : (position : Nat) → Mapping → List (Primitive ρ) → Run Mapping
  | _, compiled, [] => .done compiled
  | position, compiled, job :: jobs => do
    let id ← Run.ofExcept (jobId position job.props)
    if Entries.contains (.text id) compiled then
      .fail (.validation s!"job '{id}'"
        "duplicate job id; ids must be unique within a workflow")
    else
      let value ← compileJob limit id job
      compileJobs limit (position + 1) (compiled ++ [(.text id, value)]) jobs

def compile (limit : Nat) (root : Primitive ρ) : Run (Option Value) :=
  if root.children.isEmpty then do
    Run.report [.childlessWorkflow]
    pure none
  else do
    let nodes ← expandAll limit root.children
    Run.report (unacceptedEvents [.githubJob] "workflow" nodes)
    let jobs := Primitive.ofKind .githubJob nodes
    if jobs.isEmpty then
      Run.report [.joblessWorkflow]
      pure none
    else
      let compiled ← compileJobs limit 1 [] jobs
      Run.report [.compiledWorkflow compiled.length]
      pure (some (documentWith (root.props.select workflowFields) "jobs" (.mapping compiled)))

def compiler : Compiler ρ where
  id := "github"
  rootKind := .githubWorkflow
  extension := "yml"
  renames := renames
  description := "GitHub Actions workflow"
  compile := compile

end Github

end PipelineTree
