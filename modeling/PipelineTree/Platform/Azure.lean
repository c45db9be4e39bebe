import PipelineTree.Expansion.Leaves
import PipelineTree.Platform.Compiler

/-!
# Azure — pipelines

A pipeline is written at one of three levels: stages if there is one, else jobs if there is one, else
steps.  Nodes of the levels that are not chosen are reported and left out.
-/

namespace PipelineTree

namespace Azure

variable {ρ : Type} [ExpansionRule ρ]

def pipelineFields : List String :=
  [ "name", "appendCommitMessageToRunName", "trigger", "pr", "schedules", "parameters", "resources",
    "variables", "pool", "lockBehavior" ]

def stageFields : List String :=
  [ "stage", "displayName", "dependsOn", "condition", "variables", "pool", "lockBehavior",
    "isSkippable" ]

def jobFields : List String :=
  [ "job", "displayName", "dependsOn", "condition", "continueOnError", "pool", "container",
    "services", "variables", "strategy", "workspace", "timeoutMinutes", "cancelTimeoutMinutes" ]

def stepFields : List String :=
  [ "task", "script", "displayName", "name", "inputs", "condition", "continueOnError", "enabled",
    "env", "workingDirectory", "timeoutMinutes", "retryCountOnTaskFailure", "target" ]

def renames : RenameTable :=
  [ ("timeoutMinutes", "timeoutInMinutes"),
    ("cancelTimeoutMinutes", "cancelTimeoutInMinutes") ]

def stepRules : StepRules := ⟨"task", "script", ["displayName", "name"]⟩

def stepValue (step : Primitive ρ) : Value := .mapping (step.props.select stepFields)

def compileSteps (unit : String) (steps : List (Node ρ)) : Run Value := do
  let kept ← stepRules.enabled unit steps
  pure (.sequence (kept.map stepValue))

def compileJob (limit : Nat) (unit : String) (job : Primitive ρ) : Run Value := do
  let leaves ← collectLeaves limit .azureStep job.children
  let steps ← compileSteps unit leaves
  pure (documentWith (job.props.select jobFields) "steps" steps)

/-- How messages name the job at a position, perhaps in a stage. -/
def jobUnit (scope : Option String) (position : Nat) (props : Props) : String :=
  let name := props.label ["job", "displayName"] position
  match scope with
  | some stage => s!"job {name} in {stage}"
  | none => s!"job {name}"

def compileJobs (limit : Nat) (scope : Option String) :
    (position : Nat) → List (Primitive ρ) → Run (List Value)
  | _, [] => .done []
  | position, job :: jobs => do
    let value ← compileJob limit (jobUnit scope position job.props) job
    let values ← compileJobs limit scope (position + 1) jobs
    pure (value :: values)

def stageUnit (position : Nat) (props : Props) : String :=
  "stage " ++ props.label ["stage", "displayName"] position

def compileStage (limit : Nat) (position : Nat) (stage : Primitive ρ) : Run Value := do
  let unit := stageUnit position stage.props
  let nodes ← expandAll limit stage.children
  Run.report (unacceptedEvents [.azureJob] unit nodes)
  let jobs ← compileJobs limit (some unit) 1 (Primitive.ofKind .azureJob nodes)
  pure (documentWith (stage.props.select stageFields) "jobs" (.sequence jobs))

def compileStages (limit : Nat) : (position : Nat) → List (Primitive ρ) → Run (List Value)
  | _, [] => .done []
  | position, stage :: stages => do
    let value ← compileStage limit position stage
    let values ← compileStages limit (position + 1) stages
    pure (value :: values)

def compile (limit : Nat) (root : Primitive ρ) : Run (Option Value) :=
  if root.children.isEmpty then do
    Run.report [.childlessPipeline]
    pure none
  else do
    let nodes ← expandAll limit root.children
    let stages := Primitive.ofKind .azureStage nodes
    let jobs := Primitive.ofKind .azureJob nodes
    let steps := nodes.filter (·.isKind .azureStep)
    let fields := root.props.select pipelineFields
    if !stages.isEmpty then
      Run.report (unacceptedEvents [.azureStage] "pipeline with stages" nodes)
      let compiled ← compileStages limit 1 stages
      Run.report [.compiledPipeline compiled.length]
      pure (some (documentWith fields "stages" (.sequence compiled)))
    else if !jobs.isEmpty then
      Run.report (unacceptedEvents [.azureJob] "pipeline with jobs" nodes)
      let compiled ← compileJobs limit none 1 jobs
      pure (some (documentWith fields "jobs" (.sequence compiled)))
    else if !steps.isEmpty then
      Run.report (unacceptedEvents [.azureStep] "pipeline with steps" nodes)
      let compiled ← compileSteps "pipeline" steps
      pure (some (documentWith fields "steps" compiled))
    else
      Run.report [.partlessPipeline]
      pure none

def compiler : Compiler ρ where
  id := "azure"
  rootKind := .azurePipeline
  extension := "yaml"
  renames := renames
  description := "Azure Pipelines definition"
  compile := compile

end Azure

end PipelineTree
