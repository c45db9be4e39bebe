import PipelineTree.Authoring.Tree
import PipelineTree.Proofs.Platform.Intake
import PipelineTree.Proofs.Platform.Pipeline
import PipelineTree.Proofs.Platform.Workflow

/-!
# Account — nothing is dropped without a report

Compiling and reporting are separate: a level filters the nodes it accepts, and the warnings filter once
more, by lists of their own.  Here both are put side by side.  On every level of a document each expanded
node is compiled into one entry, or reported as a disabled step, or warned of (`compile_accounted`), and
the log holds nothing but these reports and the closing line.
-/

namespace PipelineTree

variable {ρ : Type} [ExpansionRule ρ]

/-! ## Workflows -/

namespace Github

/-- The steps of a job. -/
def stepIntake (unit : String) : Intake ρ Value :=
  .steps .githubStep stepFields unit fun node => .foreignNode .githubStep node.kindName

/-- The jobs of a workflow, with the steps of each. -/
def jobIntake (limit : Nat) : Intake ρ (Value × Value) where
  accepts := .githubJob
  warning node := .unacceptedNode node.kindName "workflow"
  Compiles position job entry logged :=
    IsJobEntry limit (job, position) entry ∧
      ∃ id, entry.1 = .text id ∧
        (stepIntake s!"job '{id}'").Takes limit job.children (entry.2.listed "steps") logged
  Drops _ _ _ := False

/-- The document of a workflow and its log account for all expanded children, down to the steps. -/
def Accounts (limit : Nat) (root : Primitive ρ) (document : Value) (logged : List Event) : Prop :=
  ∃ jobs inner, document.field? "jobs" = some (.mapping jobs) ∧ Entries.Distinct jobs ∧
    (jobIntake limit).Takes limit root.children jobs inner ∧
    logged = inner ++ [.compiledWorkflow jobs.length]

omit [ExpansionRule ρ] in
/-- A job lists its steps, and none if it has no such entry. -/
theorem listed_jobValue (props : Props) (steps : List (Primitive ρ)) :
    (jobValue props steps).listed "steps" = steps.map stepValue := by
  have hsteps : "steps" ∉ jobFields := by decide
  rw [jobValue]
  split
  · rename_i hcall
    have hnone : steps = [] := by
      simp only [Bool.and_eq_true, List.isEmpty_iff] at hcall
      exact hcall.1
    simp [Value.listed, Props.field?_select hsteps, hnone]
  · exact listed_documentWith props hsteps _

theorem takes_of_yields_compileJob {limit : Nat} {id : String} {job : Primitive ρ} {value : Value}
    {logged : List Event} (h : (compileJob limit id job).Yields value logged) :
    (stepIntake s!"job '{id}'").Takes limit job.children (value.listed "steps") logged := by
  simp only [compileJob, Run.bind_eq, Run.pure_eq, Run.yields_andThen_iff, Run.yields_done_iff] at h
  rcases h with ⟨leaves, foreign, _, hleaves, ⟨kept, dropped, _, hkept, ⟨rfl, rfl⟩, rfl⟩, rfl⟩
  rw [listed_jobValue, List.append_nil]
  exact takes_of_yields_unit hleaves hkept

/-- The jobs from a position on: each makes one entry, and logs what its steps do. -/
theorem row_of_yields_compileJobs {limit position : Nat} {compiled final : Mapping}
    {jobs : List (Primitive ρ)} {logged : List Event}
    (h : (compileJobs limit position compiled jobs).Yields final logged) :
    ∃ added, final = compiled ++ added ∧ (jobIntake limit).Row position jobs added logged := by
  induction jobs generalizing position compiled logged with
  | nil =>
    rcases Run.yields_done_iff.1 h with ⟨rfl, rfl⟩
    exact ⟨[], by simp, .nil position⟩
  | cons job jobs ih =>
    simp only [compileJobs, Run.bind_eq, Run.yields_andThen_iff, Run.yields_ofExcept_iff] at h
    rcases h with ⟨id, _, _, ⟨hid, rfl⟩, hrest, rfl⟩
    split at hrest
    · cases hrest.result
    · rcases Run.yields_andThen_iff.1 hrest with ⟨value, below, _, hvalue, hjobs, rfl⟩
      rcases ih hjobs with ⟨added, rfl, hrow⟩
      have hentry : IsJobEntry limit (job, position) (.text id, value) :=
        ⟨id, (jobId_eq_ok_iff position job.props id).1 hid, rfl,
          (result_compileJob_eq_ok_iff limit id job value).1 hvalue.result⟩
      have hcompiles : (jobIntake limit).Compiles position job (.text id, value) below :=
        ⟨hentry, id, rfl, takes_of_yields_compileJob hvalue⟩
      exact ⟨(.text id, value) :: added, by simp, .compiled hcompiles hrow⟩

theorem accounts_of_compile {limit : Nat} {root : Primitive ρ} {document : Value}
    (h : (compile limit root).result = .ok (some document)) :
    Accounts limit root document (compile limit root).log := by
  have hyields : (compile limit root).Yields (some document) (compile limit root).log := ⟨h, rfl⟩
  generalize (compile limit root).log = logged at hyields ⊢
  rw [compile] at hyields
  split at hyields
  · -- A root without children gives no document.
    cases hyields.result
  · rw [Run.bind_eq, Run.yields_andThen_iff] at hyields
    rcases hyields with ⟨nodes, _, _, hnodes, hrest, rfl⟩
    rcases yields_expandAll_iff.1 hnodes with ⟨hexpand, rfl⟩
    rcases yields_warned_iff.1 hrest with ⟨inner, hinner, rfl⟩
    dsimp only at hinner
    split at hinner
    · cases hinner.result
    · simp only [Run.bind_eq, Run.pure_eq, Run.yields_andThen_iff, Run.yields_report_iff,
        Run.yields_done_iff] at hinner
      rcases hinner with
        ⟨jobs, inner, _, hjobs, ⟨_, _, _, rfl, ⟨hdocument, rfl⟩, rfl⟩, rfl⟩
      cases hdocument
      rcases row_of_yields_compileJobs hjobs with ⟨added, hadded, hrow⟩
      have hextends := (result_compileJobs_eq_ok_iff limit 1 [] _ jobs).1 hjobs.result
      rcases hextends with ⟨_, -, ⟨hdistinct, -⟩, hfinal⟩
      simp only [List.nil_append] at hadded hfinal
      subst hadded hfinal
      refine ⟨jobs, _, field?_documentWith root.props (by decide) _, hdistinct,
        hrow.takes hexpand, ?_⟩
      simp [Event.level, jobIntake]

end Github

/-! ## Pipelines -/

namespace Azure

/-- The steps of a job. -/
def stepIntake (unit : String) : Intake ρ Value :=
  .steps .azureStep stepFields unit fun node => .foreignNode .azureStep node.kindName

/-- The jobs of a stage, or of a pipeline without stages, with the steps of each. -/
def jobIntake (limit : Nat) (scope : Option String) (context : String) : Intake ρ Value where
  accepts := .azureJob
  warning node := .unacceptedNode node.kindName context
  Compiles position job value logged :=
    IsJob limit job value ∧
      (stepIntake (jobUnit scope position job.props)).Takes limit job.children
        (value.listed "steps") logged
  Drops _ _ _ := False

/-- The stages of a pipeline, with the jobs of each. -/
def stageIntake (limit : Nat) : Intake ρ Value where
  accepts := .azureStage
  warning node := .unacceptedNode node.kindName "pipeline with stages"
  Compiles position stage value logged :=
    IsStage limit stage value ∧
      (jobIntake limit (some (stageUnit position stage.props))
        (stageUnit position stage.props)).Takes limit stage.children (value.listed "jobs") logged
  Drops _ _ _ := False

/-- The steps of a pipeline that has neither stages nor jobs. -/
def rootStepIntake : Intake ρ Value :=
  .steps .azureStep stepFields "pipeline" fun node =>
    .unacceptedNode node.kindName "pipeline with steps"

/--
The document of a pipeline and its log account for all expanded children, at the level where the pipeline
is written and below.
-/
inductive Accounts (limit : Nat) (root : Primitive ρ) (document : Value) : List Event → Prop where
  | stages {stages : List Value} {logged : List Event} :
      document.field? "stages" = some (.sequence stages) →
        (stageIntake limit).Takes limit root.children stages logged →
        Accounts limit root document (logged ++ [.compiledPipeline stages.length])
  | jobs {jobs : List Value} {logged : List Event} :
      document.field? "jobs" = some (.sequence jobs) →
        (jobIntake limit none "pipeline with jobs").Takes limit root.children jobs logged →
        Accounts limit root document logged
  | steps {steps : List Value} {logged : List Event} :
      document.field? "steps" = some (.sequence steps) →
        rootStepIntake.Takes limit root.children steps logged →
        Accounts limit root document logged

omit [ExpansionRule ρ] in
theorem kept_of_yields_compileSteps {unit : String} {steps : List (Node ρ)} {value : Value}
    {logged : List Event} (h : (compileSteps unit steps).Yields value logged) :
    ∃ kept, (stepRules.enabled unit steps).Yields kept logged ∧
      value = .sequence (kept.map stepValue) := by
  simp only [compileSteps, Run.bind_eq, Run.pure_eq, Run.yields_andThen_iff,
    Run.yields_done_iff] at h
  rcases h with ⟨kept, _, _, hkept, ⟨rfl, rfl⟩, rfl⟩
  exact ⟨kept, by simpa using hkept, rfl⟩

theorem takes_of_yields_compileJob {limit : Nat} {unit : String} {job : Primitive ρ} {value : Value}
    {logged : List Event} (h : (compileJob limit unit job).Yields value logged) :
    (stepIntake unit).Takes limit job.children (value.listed "steps") logged := by
  simp only [compileJob, Run.bind_eq, Run.pure_eq, Run.yields_andThen_iff, Run.yields_done_iff] at h
  rcases h with ⟨leaves, foreign, _, hleaves, ⟨_, dropped, _, hsteps, ⟨rfl, rfl⟩, rfl⟩, rfl⟩
  rcases kept_of_yields_compileSteps hsteps with ⟨kept, hkept, rfl⟩
  rw [listed_documentWith _ (by decide), List.append_nil]
  exact takes_of_yields_unit hleaves hkept

/-- The jobs from a position on: each makes one value, and logs what its steps do. -/
theorem row_of_yields_compileJobs {limit position : Nat} {scope : Option String} {context : String}
    {jobs : List (Primitive ρ)} {values : List Value} {logged : List Event}
    (h : (compileJobs limit scope position jobs).Yields values logged) :
    (jobIntake limit scope context).Row position jobs values logged := by
  let compile := fun position (job : Primitive ρ) =>
    compileJob limit (jobUnit scope position job.props) job
  refine Intake.row_of_yields_loop compile (compileJobs limit scope) (fun _ => rfl)
    (fun _ _ _ => rfl) ?_ h
  intro position job value below hvalue
  exact ⟨(result_compileJob_eq_ok_iff limit _ job value).1 hvalue.result,
    takes_of_yields_compileJob hvalue⟩

theorem takes_of_yields_compileStage {limit position : Nat} {stage : Primitive ρ} {value : Value}
    {logged : List Event} (h : (compileStage limit position stage).Yields value logged) :
    (jobIntake limit (some (stageUnit position stage.props))
      (stageUnit position stage.props)).Takes limit stage.children (value.listed "jobs") logged := by
  rw [compileStage, Run.bind_eq, Run.yields_andThen_iff] at h
  rcases h with ⟨nodes, _, _, hnodes, hrest, rfl⟩
  rcases yields_expandAll_iff.1 hnodes with ⟨hexpand, rfl⟩
  rcases yields_warned_iff.1 hrest with ⟨inner, hinner, rfl⟩
  simp only [Run.bind_eq, Run.pure_eq, Run.yields_andThen_iff, Run.yields_done_iff] at hinner
  rcases hinner with ⟨jobs, inner, _, hjobs, ⟨rfl, rfl⟩, rfl⟩
  rw [listed_documentWith _ (by decide), List.nil_append, List.append_nil]
  exact Intake.Row.takes hexpand (row_of_yields_compileJobs hjobs)

/-- The stages from a position on: each makes one value, and logs what its jobs do. -/
theorem row_of_yields_compileStages {limit position : Nat} {stages : List (Primitive ρ)}
    {values : List Value} {logged : List Event}
    (h : (compileStages limit position stages).Yields values logged) :
    (stageIntake limit).Row position stages values logged := by
  refine Intake.row_of_yields_loop (compileStage limit) (compileStages limit) (fun _ => rfl)
    (fun _ _ _ => rfl) ?_ h
  intro position stage value below hvalue
  exact ⟨(result_compileStage_eq_ok_iff limit position stage value).1 hvalue.result,
    takes_of_yields_compileStage hvalue⟩

section

variable {limit : Nat} {root : Primitive ρ} {nodes : List (Node ρ)} {inner : List Event}

/-- The warnings of a level, of all nodes but those it accepts. -/
def warnings (kind : Kind) (context : String) (nodes : List (Node ρ)) : List Event :=
  (nodes.filter (!·.isKind kind)).map fun node => .unacceptedNode node.kindName context

theorem accounts_of_stages {stages : List Value}
    (hexpand : (expandAll limit root.children).result = .ok nodes)
    (h : (compileStages limit 1 (Primitive.ofKind .azureStage nodes)).Yields stages inner) :
    Accounts limit root (documentWith (root.props.select pipelineFields) "stages" (.sequence stages))
      (warnings .azureStage "pipeline with stages" nodes ++ inner ++ [.compiledPipeline stages.length]) := by
  have hname : "stages" ∉ pipelineFields := by decide
  have hrow : (stageIntake limit).Row 1 _ stages inner := row_of_yields_compileStages h
  exact .stages (field?_documentWith root.props hname _) (hrow.takes hexpand)

theorem accounts_of_jobs {jobs : List Value}
    (hexpand : (expandAll limit root.children).result = .ok nodes)
    (h : (compileJobs limit none 1 (Primitive.ofKind .azureJob nodes)).Yields jobs inner) :
    Accounts limit root (documentWith (root.props.select pipelineFields) "jobs" (.sequence jobs))
      (warnings .azureJob "pipeline with jobs" nodes ++ inner) := by
  have hname : "jobs" ∉ pipelineFields := by decide
  have hrow : (jobIntake limit none "pipeline with jobs").Row 1 _ jobs inner :=
    row_of_yields_compileJobs h
  exact .jobs (field?_documentWith root.props hname _) (hrow.takes hexpand)

theorem accounts_of_steps {value : Value}
    (hexpand : (expandAll limit root.children).result = .ok nodes)
    (h : (compileSteps "pipeline" (nodes.filter (·.isKind .azureStep))).Yields value inner) :
    Accounts limit root (documentWith (root.props.select pipelineFields) "steps" value)
      (warnings .azureStep "pipeline with steps" nodes ++ inner) := by
  rcases kept_of_yields_compileSteps h with ⟨kept, hkept, rfl⟩
  rw [StepRules.enabled, Primitive.filterMap_filter_isKind] at hkept
  have hname : "steps" ∉ pipelineFields := by decide
  have hrow : rootStepIntake.Row 1 _ (kept.map stepValue) inner := row_of_yields_enabledFrom hkept
  exact .steps (field?_documentWith root.props hname _) (hrow.takes hexpand)

end

theorem accounts_of_compile {limit : Nat} {root : Primitive ρ} {document : Value}
    (h : (compile limit root).result = .ok (some document)) :
    Accounts limit root document (compile limit root).log := by
  have hyields : (compile limit root).Yields (some document) (compile limit root).log := ⟨h, rfl⟩
  generalize (compile limit root).log = logged at hyields ⊢
  rw [compile] at hyields
  split at hyields
  · -- A root without children gives no document.
    cases hyields.result
  · rw [Run.bind_eq, Run.yields_andThen_iff] at hyields
    rcases hyields with ⟨nodes, _, _, hnodes, hrest, rfl⟩
    rcases yields_expandAll_iff.1 hnodes with ⟨hexpand, rfl⟩
    -- The level that is written decides which kind the warnings spare.
    dsimp only at hrest
    split at hrest
    · rcases yields_warned_iff.1 hrest with ⟨inner, hinner, rfl⟩
      simp only [Run.bind_eq, Run.pure_eq, Run.yields_andThen_iff, Run.yields_report_iff,
        Run.yields_done_iff] at hinner
      rcases hinner with
        ⟨stages, inner, _, hstages, ⟨_, _, _, rfl, ⟨hdocument, rfl⟩, rfl⟩, rfl⟩
      cases hdocument
      simpa [warnings, Event.level] using accounts_of_stages hexpand hstages
    · split at hrest
      · rcases yields_warned_iff.1 hrest with ⟨inner, hinner, rfl⟩
        simp only [Run.bind_eq, Run.pure_eq, Run.yields_andThen_iff, Run.yields_done_iff] at hinner
        rcases hinner with ⟨jobs, inner, _, hjobs, ⟨hdocument, rfl⟩, rfl⟩
        cases hdocument
        simpa [warnings] using accounts_of_jobs hexpand hjobs
      · split at hrest
        · rcases yields_warned_iff.1 hrest with ⟨inner, hinner, rfl⟩
          simp only [Run.bind_eq, Run.pure_eq, Run.yields_andThen_iff, Run.yields_done_iff] at hinner
          rcases hinner with ⟨value, inner, _, hsteps, ⟨hdocument, rfl⟩, rfl⟩
          cases hdocument
          simpa [warnings] using accounts_of_steps hexpand hsteps
        · -- Without any level there is no document.
          simp only [Run.bind_eq, Run.pure_eq, Run.yields_andThen_iff, Run.yields_done_iff] at hrest
          rcases hrest with ⟨_, _, _, -, ⟨hdocument, -⟩, -⟩
          cases hdocument

end Azure

/--
Nothing that reaches a level of a document is dropped without a report.  Where a platform compiles a root
to a document, each expanded child of the root, of a stage and of a job is compiled into one entry, or
reported as a disabled step, or warned of; the log has these reports, level by level in document order,
and no other warnings.
-/
theorem compile_accounted (limit : Nat) (root : Primitive ρ) (document : Value) :
    ((Github.compile limit root).result = .ok (some document) →
      Github.Accounts limit root document (Github.compile limit root).log) ∧
    ((Azure.compile limit root).result = .ok (some document) →
      Azure.Accounts limit root document (Azure.compile limit root).log) :=
  ⟨Github.accounts_of_compile, Azure.accounts_of_compile⟩

/-- A workflow with a stray node, and a job with a step that is switched off and a stray step. -/
def mixedWorkflow : Primitive TemplateUse where
  kind := .githubWorkflow
  props := [("name", .text "CI")]
  children :=
    [ .group [.primitive .azureJob [] []],
      .primitive .githubJob [("id", .text "lint")]
        [ .primitive .githubStep [("run", .text "cargo fmt"), ("disabled", .bool true)] [],
          .primitive .azureStep [("script", .text "cargo doc")] [],
          .primitive .githubStep [("run", .text "cargo clippy")] [] ] ]

/-- A pipeline with a job beside its stage, and a step beside the job of the stage. -/
def mixedPipeline : Primitive TemplateUse where
  kind := .azurePipeline
  props := [("name", .text "CI")]
  children :=
    [ .primitive .azureJob [] [],
      .primitive .azureStage [("stage", .text "Check")]
        [ .primitive .azureStep [("script", .text "cargo doc")] [],
          .group
            [.primitive .azureJob []
              [ .primitive .azureStep [("script", .text "cargo fmt"), ("disabled", .bool true)] [],
                .primitive .azureStep [("script", .text "cargo clippy")] [] ]] ] ]

example : (Azure.compile 1 mixedPipeline).log =
    [ .unacceptedNode "azure.job" "pipeline with stages",
      .unacceptedNode "azure.step" "stage 'Check'",
      .disabledStep "job #1 in stage 'Check'" 1,
      .compiledPipeline 1 ] := by
  with_unfolding_all rfl

theorem compile_mixedWorkflow :
    (Github.compile 1 mixedWorkflow).result =
      .ok (some (.mapping
        [ (.text "name", .text "CI"),
          (.text "jobs", .mapping
            [(.text "lint", .mapping
              [(.text "steps", .sequence [.mapping [(.text "run", .text "cargo clippy")]])])]) ])) := by
  with_unfolding_all rfl

theorem compile_mixedPipeline :
    (Azure.compile 1 mixedPipeline).result =
      .ok (some (.mapping
        [ (.text "name", .text "CI"),
          (.text "stages", .sequence
            [.mapping
              [ (.text "stage", .text "Check"),
                (.text "jobs", .sequence
                  [.mapping
                    [(.text "steps",
                      .sequence [.mapping [(.text "script", .text "cargo clippy")]])]]) ]]) ])) := by
  with_unfolding_all rfl

theorem compile_accounted_mixed :
    (∃ document, (Github.compile 1 mixedWorkflow).result = .ok (some document) ∧
      Github.Accounts 1 mixedWorkflow document (Github.compile 1 mixedWorkflow).log) ∧
    ∃ document, (Azure.compile 1 mixedPipeline).result = .ok (some document) ∧
      Azure.Accounts 1 mixedPipeline document (Azure.compile 1 mixedPipeline).log :=
  ⟨⟨_, compile_mixedWorkflow, (compile_accounted 1 mixedWorkflow _).1 compile_mixedWorkflow⟩,
    ⟨_, compile_mixedPipeline, (compile_accounted 1 mixedPipeline _).2 compile_mixedPipeline⟩⟩

end PipelineTree
