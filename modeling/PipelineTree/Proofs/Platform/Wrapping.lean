import PipelineTree.Authoring.Tree
import PipelineTree.Proofs.Platform.Checkpoint
import PipelineTree.Proofs.Platform.Pipeline

/-!
# Wrapping — steps of a pipeline as steps of a job

A pipeline may list steps without a job.  They are treated like the steps of a job: `Azure.inJob` wraps the
children of a root into one job, and `Azure.compile_inJob` says that the steps of the pipeline are then the
steps of the job, or both pipelines fail for the same reason.

The two are compiled along different paths: a root expands its children in one go, a job one by one.  Both
come down to `resultOfUnit`, for units that differ in nothing but their names, and so in nothing but the
wording of errors (`resultOfUnit_endings`).
-/

namespace PipelineTree

variable {ρ : Type}

/-! ## One unit under two names -/

namespace StepRules

/--
The first step that is not sound has a label, which may be its position, and something is wrong with it, in
whatever unit the steps stand.
-/
def Rejects (rules : StepRules) (steps : List (Primitive ρ)) (label message : String) : Prop :=
  ∃ before step after, steps = before ++ step :: after ∧
    (∀ other ∈ before, rules.Sound other) ∧ step.props.disabled = false ∧
    label = step.props.label rules.labels (before.length + 1) ∧
    ∀ unit, rules.Violation unit (before.length + 1) step.props
      (.validation s!"step {label} in {unit}" message)

/-- A step that is rejected in one unit is rejected in every unit, with the same message. -/
theorem Violation.exists_message {rules : StepRules} {unit : String} {position : Nat} {props : Props}
    {error : Error} (h : rules.Violation unit position props error) :
    ∃ message, error = .validation s!"step {props.label rules.labels position} in {unit}" message ∧
      ∀ other, rules.Violation other position props
        (.validation s!"step {props.label rules.labels position} in {other}" message) := by
  cases h with
  | both haction hscript => exact ⟨_, rfl, fun _ => .both haction hscript⟩
  | neither haction hscript => exact ⟨_, rfl, fun _ => .neither haction hscript⟩

theorem result_enabledFrom_eq_error_iff_rejects [ExpansionRule ρ] (rules : StepRules) (unit : String)
    (steps : List (Primitive ρ)) (error : Error) :
    (rules.enabledFrom unit 1 steps).result = .error error ↔
      ∃ label message, rules.Rejects steps label message ∧
        error = .validation s!"step {label} in {unit}" message := by
  rw [result_enabledFrom_eq_error_iff]
  constructor
  · rintro ⟨before, step, after, hsteps, hbefore, henabled, hviolation⟩
    rcases hviolation.exists_message with ⟨message, herror, hunits⟩
    exact ⟨_, message, ⟨before, step, after, hsteps, hbefore, henabled, rfl, hunits⟩, herror⟩
  · rintro ⟨label, message, ⟨before, step, after, hsteps, hbefore, henabled, -, hunits⟩, rfl⟩
    exact ⟨before, step, after, hsteps, hbefore, henabled, hunits unit⟩

end StepRules

variable [ExpansionRule ρ]

/--
How a unit ends under two names: with the same steps, with the same error of the expansion of its children,
or with the same complaint about the same step.
-/
theorem resultOfUnit_endings (rules : StepRules) (limit : Nat) (leaf : Kind) (unit other : String)
    (children : List (Node ρ)) :
    (∃ kept, resultOfUnit rules limit leaf unit children = .ok kept ∧
      resultOfUnit rules limit leaf other children = .ok kept) ∨
    (∃ error, (expandAll limit children).result = .error error ∧
      resultOfUnit rules limit leaf unit children = .error error ∧
      resultOfUnit rules limit leaf other children = .error error) ∨
    ∃ nodes label message, (expandAll limit children).result = .ok nodes ∧
      rules.Rejects (Primitive.ofKind leaf nodes) label message ∧
      resultOfUnit rules limit leaf unit children =
        .error (.validation s!"step {label} in {unit}" message) ∧
      resultOfUnit rules limit leaf other children =
        .error (.validation s!"step {label} in {other}" message) := by
  cases hexpand : (expandAll limit children).result with
  | error error =>
    have hunit : ∀ name, resultOfUnit rules limit leaf name children = .error error := by
      intro name
      rw [resultOfUnit, hexpand, Run.error_bind]
    exact .inr (.inl ⟨error, rfl, hunit unit, hunit other⟩)
  | ok nodes =>
    have hunit : ∀ name, resultOfUnit rules limit leaf name children =
        (rules.enabledFrom name 1 (Primitive.ofKind leaf nodes)).result := by
      intro name
      rw [resultOfUnit, hexpand, Run.ok_bind]
    cases hsteps : (rules.enabledFrom unit 1 (Primitive.ofKind leaf nodes)).result with
    | ok kept =>
      -- Which steps are kept is a matter of the steps alone.
      have hkeeps := (rules.result_enabledFrom_eq_ok_iff unit 1 _ kept).1 hsteps
      have hother := (rules.result_enabledFrom_eq_ok_iff other 1 _ kept).2 hkeeps
      exact .inl ⟨kept, (hunit unit).trans hsteps, (hunit other).trans hother⟩
    | error error =>
      rcases (rules.result_enabledFrom_eq_error_iff_rejects unit _ error).1 hsteps with
        ⟨label, message, hrejects, rfl⟩
      have hother := (rules.result_enabledFrom_eq_error_iff_rejects other _ _).2
        ⟨label, message, hrejects, rfl⟩
      exact .inr (.inr ⟨nodes, label, message, rfl, hrejects, (hunit unit).trans hsteps,
        (hunit other).trans hother⟩)

namespace Azure

/-! ## Pipelines with one job -/

/-- A pipeline whose only child is a job with the children of a root. -/
def inJob (props : Props) (root : Primitive ρ) : Primitive ρ :=
  { root with children := [.primitive .azureJob props root.children] }

/-- The document of a pipeline that lists its steps without a job. -/
def stepsDocument (root : Primitive ρ) (steps : Value) : Value :=
  documentWith (root.props.select pipelineFields) "steps" steps

/-- The document of a pipeline with one job. -/
def jobDocument (props : Props) (root : Primitive ρ) (steps : Value) : Value :=
  documentWith (root.props.select pipelineFields) "jobs"
    (.sequence [documentWith (props.select jobFields) "steps" steps])

/-- Expanded children of which some are steps and none are stages or jobs. -/
def OnlySteps (nodes : List (Node ρ)) : Prop :=
  (∃ node ∈ nodes, node.isKind .azureStep = true) ∧
    ∀ node ∈ nodes, node.isKind .azureStage = false ∧ node.isKind .azureJob = false

theorem result_compile_inJob (limit : Nat) (props : Props) (root : Primitive ρ) :
    (compile limit (inJob props root)).result = (do
      let kept ← resultOfUnit stepRules limit .azureStep (jobUnit none 1 props) root.children
      .ok (some (jobDocument props root (.sequence (kept.map stepValue))))) := by
  have hexpand : (expandAll limit [.primitive .azureJob props root.children]).result =
      .ok [.primitive .azureJob props root.children] :=
    result_expandAll_primitives limit (by simp [Node.primitive?])
  have hstages : Primitive.ofKind .azureStage [.primitive .azureJob props root.children] = [] := rfl
  have hjobs : Primitive.ofKind .azureJob [.primitive .azureJob props root.children] =
      [⟨.azureJob, props, root.children⟩] := rfl
  rw [result_compile, inJob, hexpand, Run.ok_bind, levelOfNodes, hstages, hjobs,
    result_compileJobs_cons, result_compileJob]
  cases resultOfUnit stepRules limit .azureStep (jobUnit none 1 props) root.children <;> rfl

theorem levelOfNodes_of_onlySteps (limit : Nat) {nodes : List (Node ρ)} (h : OnlySteps nodes) :
    levelOfNodes limit nodes = (do
      let kept ← (stepRules.enabledFrom "pipeline" 1 (Primitive.ofKind .azureStep nodes)).result
      .ok (some ("steps", .sequence (kept.map stepValue)))) := by
  rcases h with ⟨⟨step, hstep, hkind⟩, hothers⟩
  have hstages : Primitive.ofKind .azureStage nodes = [] :=
    Primitive.ofKind_eq_nil_iff.2 fun node hnode => (hothers node hnode).1
  have hjobs : Primitive.ofKind .azureJob nodes = [] :=
    Primitive.ofKind_eq_nil_iff.2 fun node hnode => (hothers node hnode).2
  have hsteps : Primitive.ofKind .azureStep nodes ≠ [] := by
    intro hnil
    rw [Primitive.ofKind_eq_nil_iff.1 hnil step hstep] at hkind
    cases hkind
  rw [levelOfNodes, if_neg (not_not.2 hstages), if_neg (not_not.2 hjobs), if_pos hsteps,
    result_compileSteps]
  cases (stepRules.enabledFrom "pipeline" 1 (Primitive.ofKind .azureStep nodes)).result <;> rfl

theorem result_compile_of_onlySteps (limit : Nat) (root : Primitive ρ)
    (h : ∀ nodes, (expandAll limit root.children).result = .ok nodes → OnlySteps nodes) :
    (compile limit root).result = (do
      let kept ← resultOfUnit stepRules limit .azureStep "pipeline" root.children
      .ok (some (stepsDocument root (.sequence (kept.map stepValue))))) := by
  rw [result_compile, resultOfUnit]
  cases hexpand : (expandAll limit root.children).result with
  | error error => rfl
  | ok nodes =>
    rw [Run.ok_bind, Run.ok_bind, levelOfNodes_of_onlySteps limit (h nodes hexpand)]
    cases (stepRules.enabledFrom "pipeline" 1 (Primitive.ofKind .azureStep nodes)).result <;> rfl

/--
Steps directly under a root are treated like the steps of a job.  If expanding the children of a root gives
steps and neither stages nor jobs, or fails, then the pipeline and the one with these children in a job

* both compile, and have the same steps;
* or both fail with the error of the expansion;
* or both reject the same step with the same message, each naming its own unit.
-/
theorem compile_inJob (limit : Nat) (props : Props) (root : Primitive ρ)
    (h : ∀ nodes, (expandAll limit root.children).result = .ok nodes → OnlySteps nodes) :
    (∃ steps, (compile limit root).result = .ok (some (stepsDocument root steps)) ∧
      (compile limit (inJob props root)).result = .ok (some (jobDocument props root steps))) ∨
    (∃ error, (expandAll limit root.children).result = .error error ∧
      (compile limit root).result = .error error ∧
      (compile limit (inJob props root)).result = .error error) ∨
    ∃ nodes label message, (expandAll limit root.children).result = .ok nodes ∧
      stepRules.Rejects (Primitive.ofKind .azureStep nodes) label message ∧
      (compile limit root).result = .error (.validation s!"step {label} in pipeline" message) ∧
      (compile limit (inJob props root)).result =
        .error (.validation s!"step {label} in {jobUnit none 1 props}" message) := by
  rw [result_compile_of_onlySteps limit root h, result_compile_inJob]
  rcases resultOfUnit_endings stepRules limit .azureStep "pipeline" (jobUnit none 1 props)
      root.children with
    ⟨kept, hroot, hjob⟩ | ⟨error, hexpand, hroot, hjob⟩ |
      ⟨nodes, label, message, hexpand, hrejects, hroot, hjob⟩
  · rw [hroot, hjob]
    exact .inl ⟨_, rfl, rfl⟩
  · rw [hroot, hjob]
    exact .inr (.inl ⟨error, hexpand, rfl, rfl⟩)
  · have hentity : "step " ++ label ++ " in " ++ "pipeline" = s!"step {label} in pipeline" := by
      rw [String.append_assoc]
      rfl
    rw [hroot, hjob]
    refine .inr (.inr ⟨nodes, label, message, hexpand, hrejects, ?_, rfl⟩)
    exact congrArg (fun entity => Except.error (Error.validation entity message)) hentity

/-- A pipeline with a step, a group with a step that is off, a node of another platform, and an idle step. -/
def idleLast : Primitive TemplateUse :=
  ⟨.azurePipeline, [("name", .text "Nightly")],
    [ .primitive .azureStep [("script", .text "cargo build")] [],
      .group [.primitive .azureStep [("task", .text "Cache@2"), ("disabled", .bool true)] []],
      .primitive .githubStep [("run", .text "cargo doc")] [],
      .group [.primitive .azureStep [("env", .mapping [])] []] ]⟩

/-- What the children of this pipeline expand to. -/
def idleLastNodes : List (Node TemplateUse) :=
  [ .primitive .azureStep [("script", .text "cargo build")] [],
    .primitive .azureStep [("task", .text "Cache@2"), ("disabled", .bool true)] [],
    .primitive .githubStep [("run", .text "cargo doc")] [],
    .primitive .azureStep [("env", .mapping [])] [] ]

theorem expandAll_idleLast : (expandAll 1 idleLast.children).result = .ok idleLastNodes := by
  with_unfolding_all rfl

theorem compile_idleLast :
    (compile 1 idleLast).result =
      .error (.validation "step #3 in pipeline" "must set either 'task' or 'script'") := by
  with_unfolding_all rfl

theorem compile_inJob_idleLast :
    (∀ nodes, (expandAll 1 idleLast.children).result = .ok nodes → OnlySteps nodes) ∧
      (compile 1 (inJob [("job", .text "build")] idleLast)).result =
        .error (.validation "step #3 in job 'build'" "must set either 'task' or 'script'") := by
  have honly : ∀ nodes, (expandAll 1 idleLast.children).result = .ok nodes → OnlySteps nodes := by
    intro nodes hnodes
    rw [expandAll_idleLast] at hnodes
    cases hnodes
    simp [OnlySteps, idleLastNodes, Node.isKind, Node.kind?]
  refine ⟨honly, ?_⟩
  have hendings := compile_inJob 1 [("job", .text "build")] idleLast honly
  rw [compile_idleLast] at hendings
  rcases hendings with ⟨steps, hsteps, -⟩ | ⟨error, hexpand, -⟩ |
    ⟨nodes, label, message, -, -, herror, hjob⟩
  · cases hsteps
  · rw [expandAll_idleLast] at hexpand
    cases hexpand
  · simp only [Except.error.injEq, Error.validation.injEq] at herror
    rcases herror with ⟨hentity, rfl⟩
    have hlabel : "#3" = label := by
      have hentity : "step " ++ "#3" ++ " in pipeline" = "step " ++ label ++ " in pipeline" := hentity
      exact (String.append_right_inj _).1 ((String.append_left_inj _).1 hentity)
    rw [hjob, ← hlabel]
    rfl

end Azure

end PipelineTree
