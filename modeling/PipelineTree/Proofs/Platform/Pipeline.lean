import PipelineTree.Platform.Azure
import PipelineTree.Proofs.Platform.Parts

/-!
# Pipeline — the documents of pipelines

`Azure.IsPipeline` describes the document of a pipeline at whichever of its three levels it is written:
stages win over jobs, and jobs over steps.  `Azure.compile_pipeline` says that compiling a pipeline gives
exactly the document so described, and gives none exactly if expansion succeeds without yielding a node
of any level.
-/

namespace PipelineTree

namespace Azure

variable {ρ : Type} [ExpansionRule ρ]

/-! ## The parts of a pipeline -/

/-- The document of a step. -/
def IsStep (step : Primitive ρ) (document : Value) : Prop :=
  step.props.Record stepFields [] document

/-- The document of a job. -/
def IsJob (limit : Nat) (job : Primitive ρ) (document : Value) : Prop :=
  ∃ steps values, UnitSteps stepRules limit .azureStep job.children steps ∧
    List.Forall₂ IsStep steps values ∧
    job.props.Record jobFields [(.text "steps", .sequence values)] document

/-- The document of a stage. -/
def IsStage (limit : Nat) (stage : Primitive ρ) (document : Value) : Prop :=
  ∃ nodes values, (expandAll limit stage.children).result = .ok nodes ∧
    List.Forall₂ (IsJob limit) (Primitive.ofKind .azureJob nodes) values ∧
    stage.props.Record stageFields [(.text "jobs", .sequence values)] document

/-- What a pipeline with some expanded children lists, and under which name. -/
inductive Lists (limit : Nat) (nodes : List (Node ρ)) : String → List Value → Prop where
  | stages {values : List Value} :
      Primitive.ofKind .azureStage nodes ≠ [] →
        List.Forall₂ (IsStage limit) (Primitive.ofKind .azureStage nodes) values →
        Lists limit nodes "stages" values
  | jobs {values : List Value} :
      Primitive.ofKind .azureStage nodes = [] → Primitive.ofKind .azureJob nodes ≠ [] →
        List.Forall₂ (IsJob limit) (Primitive.ofKind .azureJob nodes) values →
        Lists limit nodes "jobs" values
  | steps {kept : List (Primitive ρ)} {values : List Value} :
      Primitive.ofKind .azureStage nodes = [] → Primitive.ofKind .azureJob nodes = [] →
        Primitive.ofKind .azureStep nodes ≠ [] →
        stepRules.Keeps (Primitive.ofKind .azureStep nodes) kept →
        List.Forall₂ IsStep kept values →
        Lists limit nodes "steps" values

/-- The document of a pipeline. -/
def IsPipeline (limit : Nat) (root : Primitive ρ) (document : Value) : Prop :=
  ∃ nodes level values, (expandAll limit root.children).result = .ok nodes ∧
    Lists limit nodes level values ∧
    root.props.Record pipelineFields [(.text level, .sequence values)] document

/-! ## Steps and jobs -/

omit [ExpansionRule ρ] in
theorem forall₂_isStep_iff (steps : List (Primitive ρ)) (values : List Value) :
    List.Forall₂ IsStep steps values ↔ values = steps.map stepValue :=
  Props.forall₂_record_iff stepFields steps values

theorem result_compileJob (limit : Nat) (unit : String) (job : Primitive ρ) :
    (compileJob limit unit job).result = (do
      let kept ← resultOfUnit stepRules limit .azureStep unit job.children
      .ok (documentWith (job.props.select jobFields) "steps" (.sequence (kept.map stepValue)))) := by
  rw [← result_unitSteps]
  simp only [compileJob, compileSteps, Run.bind_eq, Run.pure_eq, Run.result_andThen,
    Run.result_done]
  cases (collectLeaves limit .azureStep job.children).result with
  | error error => rfl
  | ok leaves => cases h : (stepRules.enabled unit leaves).result <;> simp [h]

theorem result_compileJob_eq_ok_iff (limit : Nat) (unit : String) (job : Primitive ρ)
    (document : Value) :
    (compileJob limit unit job).result = .ok document ↔ IsJob limit job document := by
  rw [result_compileJob, Run.bind_eq_ok_iff]
  simp only [resultOfUnit_eq_ok_iff, Except.ok.injEq, IsJob, forall₂_isStep_iff, Props.record_iff,
    documentWith]
  constructor
  · rintro ⟨kept, hkept, rfl⟩
    exact ⟨kept, _, hkept, rfl, rfl⟩
  · rintro ⟨kept, _, hkept, rfl, rfl⟩
    exact ⟨kept, hkept, rfl⟩

omit [ExpansionRule ρ] in
/-- The steps of a root that has neither stages nor jobs. -/
theorem result_compileSteps (unit : String) (nodes : List (Node ρ)) :
    (compileSteps unit (nodes.filter (·.isKind .azureStep))).result = (do
      let kept ← (stepRules.enabledFrom unit 1 (Primitive.ofKind .azureStep nodes)).result
      .ok (.sequence (kept.map stepValue))) := by
  rw [compileSteps, Run.bind_eq, Run.result_andThen, StepRules.enabled,
    Primitive.filterMap_filter_isKind]
  rfl

/-! ## Jobs and stages in a row -/

theorem result_compileJobs_cons (limit : Nat) (scope : Option String) (position : Nat)
    (job : Primitive ρ) (jobs : List (Primitive ρ)) :
    (compileJobs limit scope position (job :: jobs)).result = (do
      let value ← (compileJob limit (jobUnit scope position job.props) job).result
      let values ← (compileJobs limit scope (position + 1) jobs).result
      .ok (value :: values)) := by
  simp only [compileJobs, Run.bind_eq, Run.pure_eq, Run.result_andThen, Run.result_done]

theorem result_compileJobs_eq_ok_iff (limit : Nat) (scope : Option String) (position : Nat)
    (jobs : List (Primitive ρ)) (values : List Value) :
    (compileJobs limit scope position jobs).result = .ok values ↔
      List.Forall₂ (IsJob limit) jobs values := by
  induction jobs generalizing position values with
  | nil => simp [compileJobs, eq_comm]
  | cons job jobs ih =>
    rw [result_compileJobs_cons]
    exact forall₂_cons_iff_of_bind (result_compileJob_eq_ok_iff limit _ job) (ih (position + 1)) values

theorem result_compileStage (limit position : Nat) (stage : Primitive ρ) :
    (compileStage limit position stage).result = (do
      let nodes ← (expandAll limit stage.children).result
      let jobs ← (compileJobs limit (some (stageUnit position stage.props)) 1
        (Primitive.ofKind .azureJob nodes)).result
      .ok (documentWith (stage.props.select stageFields) "jobs" (.sequence jobs))) := by
  simp only [compileStage, Run.bind_eq, Run.pure_eq, Run.result_andThen, Run.result_report,
    Run.result_done, Run.ok_bind]

theorem result_compileStage_eq_ok_iff (limit position : Nat) (stage : Primitive ρ)
    (document : Value) :
    (compileStage limit position stage).result = .ok document ↔ IsStage limit stage document := by
  simp only [result_compileStage, Run.bind_eq_ok_iff, result_compileJobs_eq_ok_iff, Except.ok.injEq,
    IsStage, Props.record_iff, documentWith]
  constructor
  · rintro ⟨nodes, hnodes, values, hvalues, rfl⟩
    exact ⟨nodes, values, hnodes, hvalues, rfl⟩
  · rintro ⟨nodes, values, hnodes, hvalues, rfl⟩
    exact ⟨nodes, hnodes, values, hvalues, rfl⟩

theorem result_compileStages_cons (limit position : Nat) (stage : Primitive ρ)
    (stages : List (Primitive ρ)) :
    (compileStages limit position (stage :: stages)).result = (do
      let value ← (compileStage limit position stage).result
      let values ← (compileStages limit (position + 1) stages).result
      .ok (value :: values)) := by
  simp only [compileStages, Run.bind_eq, Run.pure_eq, Run.result_andThen, Run.result_done]

theorem result_compileStages_eq_ok_iff (limit position : Nat) (stages : List (Primitive ρ))
    (values : List Value) :
    (compileStages limit position stages).result = .ok values ↔
      List.Forall₂ (IsStage limit) stages values := by
  induction stages generalizing position values with
  | nil => simp [compileStages, eq_comm]
  | cons stage stages ih =>
    rw [result_compileStages_cons]
    exact forall₂_cons_iff_of_bind (result_compileStage_eq_ok_iff limit position stage)
      (ih (position + 1)) values

/-! ## Pipelines -/

/-- The name under which a pipeline with some expanded children lists its parts, and the parts. -/
def levelOfNodes (limit : Nat) (nodes : List (Node ρ)) : Except Error (Option (String × Value)) :=
  if Primitive.ofKind .azureStage nodes ≠ [] then do
    let values ← (compileStages limit 1 (Primitive.ofKind .azureStage nodes)).result
    .ok (some ("stages", .sequence values))
  else if Primitive.ofKind .azureJob nodes ≠ [] then do
    let values ← (compileJobs limit none 1 (Primitive.ofKind .azureJob nodes)).result
    .ok (some ("jobs", .sequence values))
  else if Primitive.ofKind .azureStep nodes ≠ [] then do
    let value ← (compileSteps "pipeline" (nodes.filter (·.isKind .azureStep))).result
    .ok (some ("steps", value))
  else .ok none

/-- The shortcut for a root without children agrees with the long path. -/
theorem result_compile (limit : Nat) (root : Primitive ρ) :
    (compile limit root).result = (do
      let nodes ← (expandAll limit root.children).result
      let level ← levelOfNodes limit nodes
      .ok (level.map fun (name, value) =>
        documentWith (root.props.select pipelineFields) name value)) := by
  rcases root with ⟨kind, props, children⟩
  cases children with
  | nil =>
    -- Nothing expands to nothing, which holds no part of a pipeline.
    rw [result_expandAll_nil]
    rfl
  | cons child children =>
    simp only [compile, List.isEmpty_cons, Bool.false_eq_true, if_false, Run.bind_eq,
      Run.result_andThen]
    congr 1
    funext nodes
    have hsteps : (nodes.filter (·.isKind .azureStep)).isEmpty = true ↔
        Primitive.ofKind .azureStep nodes = [] := by
      rw [Primitive.ofKind_eq_nil_iff, List.isEmpty_iff, List.filter_eq_nil_iff]
      simp
    -- The first level that occurs is the one that is written.
    by_cases hstage : Primitive.ofKind .azureStage nodes = []
    · by_cases hjob : Primitive.ofKind .azureJob nodes = []
      · by_cases hstep : Primitive.ofKind .azureStep nodes = []
        · simp [levelOfNodes, hstage, hjob, hstep, hsteps.2 hstep]
        · have hnonempty : (nodes.filter (·.isKind .azureStep)).isEmpty = false := by
            simpa [hstep] using hsteps.not.2 hstep
          simp [levelOfNodes, hstage, hjob, hstep, hnonempty]
      · simp [levelOfNodes, hstage, hjob]
    · simp [levelOfNodes, hstage]

theorem levelOfNodes_eq_none_iff (limit : Nat) (nodes : List (Node ρ)) :
    levelOfNodes limit nodes = .ok none ↔
      Primitive.ofKind .azureStage nodes = [] ∧ Primitive.ofKind .azureJob nodes = [] ∧
        Primitive.ofKind .azureStep nodes = [] := by
  by_cases hstage : Primitive.ofKind .azureStage nodes = []
  · by_cases hjob : Primitive.ofKind .azureJob nodes = []
    · by_cases hstep : Primitive.ofKind .azureStep nodes = []
      · simp [levelOfNodes, hstage, hjob, hstep]
      · simp [levelOfNodes, hstage, hjob, hstep, Run.bind_eq_ok_iff]
    · simp [levelOfNodes, hstage, hjob, Run.bind_eq_ok_iff]
  · simp [levelOfNodes, hstage, Run.bind_eq_ok_iff]

theorem lists_of_levelOfNodes {limit : Nat} {nodes : List (Node ρ)} {level : String} {value : Value}
    (h : levelOfNodes limit nodes = .ok (some (level, value))) :
    ∃ values, Lists limit nodes level values ∧ value = .sequence values := by
  rw [levelOfNodes] at h
  split at h
  · rename_i hstage
    rcases Run.bind_eq_ok_iff.1 h with ⟨values, hvalues, hlevel⟩
    cases hlevel
    exact ⟨values, .stages hstage ((result_compileStages_eq_ok_iff _ _ _ _).1 hvalues), rfl⟩
  · rename_i hstage
    rw [not_not] at hstage
    split at h
    · rename_i hjob
      rcases Run.bind_eq_ok_iff.1 h with ⟨values, hvalues, hlevel⟩
      cases hlevel
      exact ⟨values, .jobs hstage hjob ((result_compileJobs_eq_ok_iff _ _ _ _ _).1 hvalues), rfl⟩
    · rename_i hjob
      rw [not_not] at hjob
      split at h
      · rename_i hstep
        rw [result_compileSteps] at h
        simp only [Run.bind_eq_ok_iff, StepRules.result_enabledFrom_eq_ok_iff] at h
        rcases h with ⟨_, ⟨kept, hkept, hvalue⟩, hlevel⟩
        cases hvalue
        cases hlevel
        exact ⟨_, .steps hstage hjob hstep hkept ((forall₂_isStep_iff _ _).2 rfl), rfl⟩
      · cases h

theorem Lists.levelOfNodes {limit : Nat} {nodes : List (Node ρ)} {level : String}
    {values : List Value} (h : Lists limit nodes level values) :
    levelOfNodes limit nodes = .ok (some (level, .sequence values)) := by
  rw [Azure.levelOfNodes]
  cases h with
  | stages hstage hvalues =>
    rw [if_pos hstage, (result_compileStages_eq_ok_iff _ _ _ _).2 hvalues]
    rfl
  | jobs hstage hjob hvalues =>
    rw [if_neg (not_not.2 hstage), if_pos hjob, (result_compileJobs_eq_ok_iff _ _ _ _ _).2 hvalues]
    rfl
  | steps hstage hjob hstep hkept hvalues =>
    rw [if_neg (not_not.2 hstage), if_neg (not_not.2 hjob), if_pos hstep, result_compileSteps,
      (StepRules.result_enabledFrom_eq_ok_iff _ _ _ _ _).2 hkept,
      (forall₂_isStep_iff _ _).1 hvalues]
    rfl

/--
Compiling a pipeline gives no document exactly if expansion succeeds without yielding a stage, a job or
a step, and otherwise, if it succeeds, the one that `IsPipeline` describes.
-/
theorem compile_pipeline (limit : Nat) (root : Primitive ρ) :
    ((compile limit root).result = .ok none ↔
      ∃ nodes, (expandAll limit root.children).result = .ok nodes ∧
        ∀ node ∈ nodes, node.isKind .azureStage = false ∧ node.isKind .azureJob = false ∧
          node.isKind .azureStep = false) ∧
    ∀ document, (compile limit root).result = .ok (some document) ↔
      IsPipeline limit root document := by
  rw [result_compile]
  constructor
  · simp only [Run.bind_eq_ok_iff, Except.ok.injEq, Option.map_eq_none_iff, exists_eq_right,
      levelOfNodes_eq_none_iff, Primitive.ofKind_eq_nil_iff, forall_and]
  · intro document
    simp only [Run.bind_eq_ok_iff, Except.ok.injEq, Option.map_eq_some_iff, IsPipeline,
      Props.record_iff]
    constructor
    · rintro ⟨nodes, hnodes, _, hlevel, ⟨level, value⟩, rfl, rfl⟩
      rcases lists_of_levelOfNodes hlevel with ⟨values, hlists, rfl⟩
      exact ⟨nodes, level, values, hnodes, hlists, rfl⟩
    · rintro ⟨nodes, level, values, hnodes, hlists, rfl⟩
      exact ⟨nodes, hnodes, _, hlists.levelOfNodes, _, rfl, rfl⟩

end Azure

end PipelineTree
