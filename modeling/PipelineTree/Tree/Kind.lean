/-!
# Kind — the node kinds that platforms understand

Two platforms share one closed list of kinds.  Each kind has a dotted name and a structural role.
-/

namespace PipelineTree

/-- The place of a kind in a platform's document. -/
inductive Role where
  | root
  | stage
  | job
  | step
  deriving DecidableEq, Repr

/-- The kinds of nodes that a platform understands by itself. -/
inductive Kind where
  | githubWorkflow
  | githubJob
  | githubStep
  | azurePipeline
  | azureStage
  | azureJob
  | azureStep
  deriving DecidableEq, Repr

namespace Kind

def all : List Kind :=
  [.githubWorkflow, .githubJob, .githubStep, .azurePipeline, .azureStage, .azureJob, .azureStep]

def name : Kind → String
  | .githubWorkflow => "github.workflow"
  | .githubJob => "github.job"
  | .githubStep => "github.step"
  | .azurePipeline => "azure.pipeline"
  | .azureStage => "azure.stage"
  | .azureJob => "azure.job"
  | .azureStep => "azure.step"

def role : Kind → Role
  | .githubWorkflow | .azurePipeline => .root
  | .azureStage => .stage
  | .githubJob | .azureJob => .job
  | .githubStep | .azureStep => .step

def ofName? (name : String) : Option Kind := all.find? (·.name == name)

theorem ofName?_name (k : Kind) : ofName? k.name = some k := by cases k <;> decide

theorem ofName?_eq_some_iff {name : String} {kind : Kind} :
    ofName? name = some kind ↔ name = kind.name := by
  constructor
  · intro h
    have hname := List.find?_some h
    exact (eq_of_beq hname).symm
  · rintro rfl
    exact kind.ofName?_name

theorem name_ne_group (kind : Kind) : kind.name ≠ "group" := by
  cases kind <;> decide

theorem name_ne_use (kind : Kind) : kind.name ≠ "use" := by
  cases kind <;> decide

end Kind

def Role.name : Role → String
  | .root => "root"
  | .stage => "stage"
  | .job => "job"
  | .step => "step"

end PipelineTree
