import PipelineTree.Proofs.Platform.Checkpoint
import PipelineTree.Proofs.Platform.Pipeline
import PipelineTree.Proofs.Platform.Workflow

/-!
# Failure — when compiling fails, and with which error

For each platform, `Reaches` says which children the compiler expands and which broken rule it reaches
first, and `Broken` says that a rule is broken anywhere in the part that is compiled.  Unless one of the
expansions fails, compiling fails exactly if a rule is broken, and the error is that of the first
violation in document order (`compile_fails_iff`).
-/

namespace PipelineTree

variable {ρ : Type} [ExpansionRule ρ]

/-! ## Workflows -/

namespace Github

/-- The `id` is set, and is none of a text, a number and a boolean; a value under a tag is none of them. -/
def IdRefused (props : Props) : Prop :=
  ∃ value, props.value? "id" = some value ∧ (∀ s, value ≠ .text s) ∧ (∀ n, value ≠ .number n) ∧
    ∀ b, value ≠ .bool b

/-- One of the jobs has the id. -/
def Taken (jobs : List (Primitive ρ)) (id : String) : Prop :=
  ∃ job ∈ jobs.zipIdx 1, JobKey job.2 job.1.props id

/-- A job has an id that no job before it has, its children expand, and its steps are sound. -/
def JobSound (limit : Nat) (seen : List (Primitive ρ)) (job : Primitive ρ) : Prop :=
  ∃ id, JobKey (seen.length + 1) job.props id ∧ ¬Taken seen id ∧
    UnitSound stepRules limit .githubStep job.children

/-- What is reached at a job behind others: its id, whether the id is taken, its children, its steps. -/
inductive JobReaches (limit : Nat) (seen : List (Primitive ρ)) (job : Primitive ρ) :
    Checkpoint ρ → Prop where
  | id : IdRefused job.props →
      JobReaches limit seen job
        (.violation (.validation s!"job #{seen.length + 1}" "'id' must be a scalar"))
  | duplicate {id : String} : JobKey (seen.length + 1) job.props id → Taken seen id →
      JobReaches limit seen job
        (.violation (.validation s!"job '{id}'"
          "duplicate job id; ids must be unique within a workflow"))
  | unit {id : String} {checkpoint : Checkpoint ρ} :
      JobKey (seen.length + 1) job.props id → ¬Taken seen id →
        UnitReaches stepRules limit .githubStep s!"job '{id}'" job.children checkpoint →
        JobReaches limit seen job checkpoint

/-- What is reached in a workflow: its children, and then its jobs one by one. -/
def Reaches (limit : Nat) (root : Primitive ρ) : Checkpoint ρ → Prop :=
  Expanding limit root.children fun nodes =>
    Reached (JobSound limit) (JobReaches limit) [] (Primitive.ofKind .githubJob nodes)

/-- A job of a workflow, between the jobs on both sides of it. -/
def IsJobOf (limit : Nat) (root : Primitive ρ) (before : List (Primitive ρ)) (job : Primitive ρ)
    (after : List (Primitive ρ)) : Prop :=
  ∃ nodes, (expandAll limit root.children).result = .ok nodes ∧
    Primitive.ofKind .githubJob nodes = before ++ job :: after

/-- A rule is broken at some job of a workflow, whatever stands before it. -/
inductive Broken (limit : Nat) (root : Primitive ρ) : Prop where
  | id {before after : List (Primitive ρ)} {job : Primitive ρ} :
      IsJobOf limit root before job after → IdRefused job.props → Broken limit root
  | duplicate {before after : List (Primitive ρ)} {job : Primitive ρ} {id : String} :
      IsJobOf limit root before job after → JobKey (before.length + 1) job.props id →
        Taken before id → Broken limit root
  | step {before after : List (Primitive ρ)} {job step : Primitive ρ} {leaves : List (Node ρ)} :
      IsJobOf limit root before job after → (expandAll limit job.children).result = .ok leaves →
        step ∈ Primitive.ofKind .githubStep leaves → step.props.disabled = false →
        ¬stepRules.Exclusive step.props → Broken limit root

/-! ### One job -/

theorem jobId_eq_error_iff (position : Nat) (props : Props) (error : Error) :
    jobId position props = .error error ↔
      IdRefused props ∧ error = .validation s!"job #{position}" "'id' must be a scalar" := by
  constructor
  · intro h
    unfold jobId at h
    split at h
    · cases h
    · cases h
    · cases h
    · cases h
    · rename_i value htext hnumber hbool hvalue
      cases h
      exact ⟨⟨value, hvalue, htext, hnumber, hbool⟩, rfl⟩
  · rintro ⟨⟨value, hvalue, htext, hnumber, hbool⟩, rfl⟩
    unfold jobId
    rw [hvalue]
    cases value with
    | text s => exact absurd rfl (htext s)
    | number n => exact absurd rfl (hnumber n)
    | bool b => exact absurd rfl (hbool b)
    | _ => rfl

theorem IdRefused.not_jobKey {position : Nat} {props : Props} {id : String}
    (h : IdRefused props) : ¬JobKey position props id := by
  intro hid
  have hok := (jobId_eq_ok_iff position props id).2 hid
  have herror := (jobId_eq_error_iff position props _).2 ⟨h, rfl⟩
  cases hok.symm.trans herror

/-- The entries written so far have the ids of some jobs for keys. -/
def HasIdsOf (compiled : Mapping) (jobs : List (Primitive ρ)) : Prop :=
  ∀ id, Entries.contains (.text id) compiled = true ↔ Taken jobs id

theorem exists_compileJob_iff (limit : Nat) (id : String) (job : Primitive ρ) :
    (∃ value, (compileJob limit id job).result = .ok value) ↔
      UnitSound stepRules limit .githubStep job.children := by
  rw [result_compileJob, exists_bind_ok_iff]
  exact exists_resultOfUnit_iff stepRules limit .githubStep s!"job '{id}'" job.children

theorem exists_resultOfJob_iff {limit : Nat} {seen : List (Primitive ρ)} {compiled : Mapping}
    (hids : HasIdsOf compiled seen) (job : Primitive ρ) :
    (∃ entry, resultOfJob limit (seen.length + 1) compiled job = .ok entry) ↔
      JobSound limit seen job := by
  simp only [resultOfJob_eq_ok_iff]
  constructor
  · rintro ⟨entry, ⟨id, hid, hkey, hjob⟩, hfresh⟩
    have hunit := (exists_compileJob_iff limit id job).1
      ⟨entry.2, (result_compileJob_eq_ok_iff limit id job entry.2).2 hjob⟩
    have hfree : ¬Taken seen id := by
      rw [← hids, ← hkey, hfresh]
      exact Bool.false_ne_true
    exact ⟨id, hid, hfree, hunit⟩
  · rintro ⟨id, hid, hfree, hunit⟩
    rcases (exists_compileJob_iff limit id job).2 hunit with ⟨document, hdocument⟩
    have hjob := (result_compileJob_eq_ok_iff limit id job document).1 hdocument
    have hfresh : Entries.contains (.text id) compiled = false := by
      rw [Bool.eq_false_iff]
      exact mt (hids id).1 hfree
    exact ⟨(.text id, document), ⟨id, hid, rfl, hjob⟩, hfresh⟩

theorem failsAt_resultOfJob {limit : Nat} {seen : List (Primitive ρ)} {compiled : Mapping}
    (hids : HasIdsOf compiled seen) (job : Primitive ρ) :
    FailsAt limit (resultOfJob limit (seen.length + 1) compiled job) (JobReaches limit seen job) := by
  intro error
  have hunit : ∀ id, FailsAt limit
      ((compileJob limit id job).result >>= fun value => .ok (Value.text id, value))
      (UnitReaches stepRules limit .githubStep s!"job '{id}'" job.children) := by
    intro id
    rw [result_compileJob]
    exact ((failsAt_resultOfUnit stepRules limit .githubStep _ job.children).bind_ok _).bind_ok _
  rw [resultOfJob, Run.bind_eq_error_iff, jobId_eq_error_iff]
  simp only [jobId_eq_ok_iff]
  -- The id is read first, so whatever else is wrong is wrong with a job whose id is known.
  constructor
  · rintro (⟨hrefused, rfl⟩ | ⟨id, hid, hrest⟩)
    · exact ⟨_, .id hrefused, rfl⟩
    · by_cases htaken : Taken seen id
      · rw [if_pos ((hids id).2 htaken)] at hrest
        cases hrest
        exact ⟨_, .duplicate hid htaken, rfl⟩
      · rw [if_neg (mt (hids id).1 htaken)] at hrest
        rcases (hunit id error).1 hrest with ⟨checkpoint, hreaches, hfails⟩
        exact ⟨checkpoint, .unit hid htaken hreaches, hfails⟩
  · rintro ⟨_, hrefused | ⟨hid, htaken⟩ | ⟨hid, htaken, hreaches⟩, hfails⟩
    · cases hfails
      exact .inl ⟨hrefused, rfl⟩
    · cases hfails
      refine .inr ⟨_, hid, ?_⟩
      rw [if_pos ((hids _).2 htaken)]
    · refine .inr ⟨_, hid, ?_⟩
      rw [if_neg (mt (hids _).1 htaken)]
      exact (hunit _ error).2 ⟨_, hreaches, hfails⟩

/-! ### Jobs in a row -/

omit [ExpansionRule ρ] in
theorem hasIdsOf_nil : HasIdsOf [] ([] : List (Primitive ρ)) := by
  intro id
  simp [Entries.contains, Taken]

omit [ExpansionRule ρ] in
theorem taken_append_iff (seen : List (Primitive ρ)) (job : Primitive ρ) (id : String) :
    Taken (seen ++ [job]) id ↔ Taken seen id ∨ JobKey (seen.length + 1) job.props id := by
  have hposition : 1 + seen.length = seen.length + 1 := Nat.add_comm 1 seen.length
  simp [Taken, List.zipIdx_append, or_and_right, exists_or, hposition]

/-- The entry of a compiled job adds its id to the keys. -/
theorem HasIdsOf.append {limit : Nat} {compiled : Mapping} {seen : List (Primitive ρ)}
    {job : Primitive ρ} {entry : Value × Value} (hids : HasIdsOf compiled seen)
    (hentry : resultOfJob limit (seen.length + 1) compiled job = .ok entry) :
    HasIdsOf (compiled ++ [entry]) (seen ++ [job]) := by
  rcases (resultOfJob_eq_ok_iff _ _ _ _ _).1 hentry with ⟨⟨id, hid, hkey, -⟩, -⟩
  intro other
  have hsame : id = other ↔ JobKey (seen.length + 1) job.props other := by
    constructor
    · rintro rfl
      exact hid
    · intro hother
      exact hid.unique hother
  -- The entry is the last one, so it only adds its own key.
  rw [taken_append_iff, ← hids, ← hsame, Entries.contains, List.any_append, Bool.or_eq_true]
  simp [Entries.contains, hkey]

/-- The induction is on the jobs that are left; the keys written so far are the ids of those before. -/
theorem failsAt_compileJobs {limit : Nat} {seen : List (Primitive ρ)} {compiled : Mapping}
    (hids : HasIdsOf compiled seen) (jobs : List (Primitive ρ)) :
    FailsAt limit (compileJobs limit (seen.length + 1) compiled jobs).result
      (Reached (JobSound limit) (JobReaches limit) seen jobs) := by
  induction jobs generalizing seen compiled with
  | nil => exact FailsAt.ok compiled fun _ => not_reached_nil
  | cons job jobs ih =>
    rw [result_compileJobs_cons]
    apply (failsAt_resultOfJob hids job).cons (exists_resultOfJob_iff hids job)
    intro entry hentry
    have hrest := ih (hids.append hentry)
    rwa [List.length_append, List.length_singleton] at hrest

/-- If jobs compile, each is sound behind those before it, on which the induction is. -/
theorem jobSound_of_compileJobs {limit : Nat} {seen : List (Primitive ρ)} {compiled final : Mapping}
    (hids : HasIdsOf compiled seen) (before : List (Primitive ρ)) (job : Primitive ρ)
    (after : List (Primitive ρ))
    (hok : (compileJobs limit (seen.length + 1) compiled (before ++ job :: after)).result =
      .ok final) :
    JobSound limit (seen ++ before) job := by
  induction before generalizing seen compiled with
  | nil =>
    rw [List.nil_append, result_compileJobs_cons, Run.bind_eq_ok_iff] at hok
    rcases hok with ⟨entry, hentry, -⟩
    rw [List.append_nil]
    exact (exists_resultOfJob_iff hids job).1 ⟨entry, hentry⟩
  | cons first before ih =>
    rw [List.cons_append, result_compileJobs_cons, Run.bind_eq_ok_iff] at hok
    rcases hok with ⟨entry, hentry, hrest⟩
    have hsound := ih (hids.append hentry) (by simpa using hrest)
    rwa [List.append_assoc, List.singleton_append] at hsound

/-! ### Whole workflows -/

/-- The case without jobs needs no argument of its own: nothing is reached in an empty row. -/
theorem failsAt_resultOfNodes (limit : Nat) (props : Props) (nodes : List (Node ρ)) :
    FailsAt limit (resultOfNodes limit props nodes)
      (Reached (JobSound limit) (JobReaches limit) [] (Primitive.ofKind .githubJob nodes)) := by
  rw [resultOfNodes]
  by_cases hjobs : Primitive.ofKind .githubJob nodes = []
  · rw [if_pos hjobs, hjobs]
    exact FailsAt.ok none fun _ => not_reached_nil
  · rw [if_neg hjobs]
    exact (failsAt_compileJobs hasIdsOf_nil (Primitive.ofKind .githubJob nodes)).bind_ok _

theorem failsAt_compile (limit : Nat) (root : Primitive ρ) :
    FailsAt limit (compile limit root).result (Reaches limit root) := by
  rw [result_compile]
  exact FailsAt.expanding (failsAt_resultOfNodes limit root.props)

/-- The first violation is one of the rules that are broken. -/
theorem Reaches.broken {limit : Nat} {root : Primitive ρ} {error : Error}
    (h : Reaches limit root (.violation error)) : Broken limit root := by
  cases h with
  | @inside nodes _ hexpand hreached =>
    rcases hreached.exists_part with ⟨before, job, after, hjobs, hat⟩
    have hjob : IsJobOf limit root before job after := ⟨nodes, hexpand, hjobs⟩
    rw [List.nil_append] at hat
    cases hat with
    | id hrefused => exact .id hjob hrefused
    | duplicate hid htaken => exact .duplicate hjob hid htaken
    | unit _ _ hunit =>
      rcases hunit.exists_step with ⟨leaves, hleaves, step, hstep, henabled, hexclusive⟩
      exact .step hjob hleaves hstep henabled hexclusive

theorem IsJobOf.sound {limit : Nat} {root job : Primitive ρ} {before after : List (Primitive ρ)}
    (hjob : IsJobOf limit root before job after) {result : Option Value}
    (hok : (compile limit root).result = .ok result) : JobSound limit before job := by
  rcases hjob with ⟨nodes, hexpand, hjobs⟩
  have hsome : ¬Primitive.ofKind .githubJob nodes = [] := by simp [hjobs]
  rw [result_compile, hexpand, Run.ok_bind, resultOfNodes, if_neg hsome, Run.bind_eq_ok_iff,
    hjobs] at hok
  rcases hok with ⟨final, hfinal, -⟩
  exact jobSound_of_compileJobs hasIdsOf_nil before job after hfinal

/-- No document is made where a rule is broken. -/
theorem Broken.not_ok {limit : Nat} {root : Primitive ρ} (h : Broken limit root)
    (result : Option Value) : (compile limit root).result ≠ .ok result := by
  intro hok
  cases h with
  | id hjob hrefused =>
    rcases hjob.sound hok with ⟨id, hid, -⟩
    exact hrefused.not_jobKey hid
  | duplicate hjob hid htaken =>
    rcases hjob.sound hok with ⟨id, hid', hfresh, -⟩
    rw [hid'.unique hid] at hfresh
    exact hfresh htaken
  | step hjob hleaves hstep henabled hexclusive =>
    rcases hjob.sound hok with ⟨-, -, -, hunit⟩
    exact hexclusive (hunit.exclusive hleaves hstep henabled)

end Github

/-! ## Pipelines -/

namespace Azure

/-- What is reached in a row of jobs, named in a scope; each job is a unit. -/
def JobsReach (limit : Nat) (scope : Option String) :
    (seen jobs : List (Primitive ρ)) → Checkpoint ρ → Prop :=
  Reached (fun _ job => UnitSound stepRules limit .azureStep job.children) fun seen job =>
    UnitReaches stepRules limit .azureStep (jobUnit scope (seen.length + 1) job.props) job.children

/-- The children of a stage expand, and so do those of its jobs, the steps of which are sound. -/
def StageSound (limit : Nat) (stage : Primitive ρ) : Prop :=
  ∃ nodes, (expandAll limit stage.children).result = .ok nodes ∧
    ∀ job ∈ Primitive.ofKind .azureJob nodes, UnitSound stepRules limit .azureStep job.children

/-- What is reached in a row of stages: the children of each, and then its jobs. -/
def StagesReach (limit : Nat) : (seen stages : List (Primitive ρ)) → Checkpoint ρ → Prop :=
  Reached (fun _ stage => StageSound limit stage) fun seen stage =>
    Expanding limit stage.children fun nodes =>
      JobsReach limit (some (stageUnit (seen.length + 1) stage.props)) []
        (Primitive.ofKind .azureJob nodes)

/-- What is reached at the level at which a pipeline is written. -/
def LevelReaches (limit : Nat) (nodes : List (Node ρ)) : Checkpoint ρ → Prop :=
  if Primitive.ofKind .azureStage nodes ≠ [] then
    StagesReach limit [] (Primitive.ofKind .azureStage nodes)
  else if Primitive.ofKind .azureJob nodes ≠ [] then
    JobsReach limit none [] (Primitive.ofKind .azureJob nodes)
  else
    stepRules.StepsReach "pipeline" [] (Primitive.ofKind .azureStep nodes)

/-- What is reached in a pipeline: its children, and then the level at which it is written. -/
def Reaches (limit : Nat) (root : Primitive ρ) : Checkpoint ρ → Prop :=
  Expanding limit root.children (LevelReaches limit)

/-- A job that is compiled: one of a stage, or one of a root that has no stages. -/
inductive IsJobOf (limit : Nat) (root : Primitive ρ) : Primitive ρ → Prop where
  | staged {nodes inner : List (Node ρ)} {stage job : Primitive ρ} :
      (expandAll limit root.children).result = .ok nodes →
        stage ∈ Primitive.ofKind .azureStage nodes →
        (expandAll limit stage.children).result = .ok inner →
        job ∈ Primitive.ofKind .azureJob inner → IsJobOf limit root job
  | direct {nodes : List (Node ρ)} {job : Primitive ρ} :
      (expandAll limit root.children).result = .ok nodes →
        Primitive.ofKind .azureStage nodes = [] →
        job ∈ Primitive.ofKind .azureJob nodes → IsJobOf limit root job

/-- A step that is compiled: one of a compiled job, or one of a root without stages and jobs. -/
inductive IsStepOf (limit : Nat) (root : Primitive ρ) : Primitive ρ → Prop where
  | job {leaves : List (Node ρ)} {job step : Primitive ρ} :
      IsJobOf limit root job → (expandAll limit job.children).result = .ok leaves →
        step ∈ Primitive.ofKind .azureStep leaves → IsStepOf limit root step
  | direct {nodes : List (Node ρ)} {step : Primitive ρ} :
      (expandAll limit root.children).result = .ok nodes →
        Primitive.ofKind .azureStage nodes = [] → Primitive.ofKind .azureJob nodes = [] →
        step ∈ Primitive.ofKind .azureStep nodes → IsStepOf limit root step

/-- A compiled step that is not switched off has both behaviours or neither. -/
def Broken (limit : Nat) (root : Primitive ρ) : Prop :=
  ∃ step, IsStepOf limit root step ∧ step.props.disabled = false ∧
    ¬stepRules.Exclusive step.props

/-! ### Jobs -/

theorem exists_compileJob_iff (limit : Nat) (unit : String) (job : Primitive ρ) :
    (∃ value, (compileJob limit unit job).result = .ok value) ↔
      UnitSound stepRules limit .azureStep job.children := by
  rw [result_compileJob, exists_bind_ok_iff]
  exact exists_resultOfUnit_iff stepRules limit .azureStep unit job.children

theorem exists_compileJobs_iff (limit : Nat) (scope : Option String) (position : Nat)
    (jobs : List (Primitive ρ)) :
    (∃ values, (compileJobs limit scope position jobs).result = .ok values) ↔
      ∀ job ∈ jobs, UnitSound stepRules limit .azureStep job.children := by
  -- Whether a job compiles does not depend on its name in messages.
  have hjob : ∀ job : Primitive ρ, (∃ document, IsJob limit job document) ↔
      UnitSound stepRules limit .azureStep job.children := by
    intro job
    simp only [← exists_compileJob_iff limit "", result_compileJob_eq_ok_iff]
  simp only [result_compileJobs_eq_ok_iff, exists_forall₂_iff, hjob]

theorem failsAt_compileJobs (limit : Nat) (scope : Option String) (seen jobs : List (Primitive ρ)) :
    FailsAt limit (compileJobs limit scope (seen.length + 1) jobs).result
      (JobsReach limit scope seen jobs) := by
  let one (position : Nat) (job : Primitive ρ) : Except Error Value :=
    (compileJob limit (jobUnit scope position job.props) job).result
  let row (position : Nat) (jobs : List (Primitive ρ)) : Except Error (List Value) :=
    (compileJobs limit scope position jobs).result
  apply FailsAt.row one row (fun _ => rfl) (result_compileJobs_cons limit scope)
  · intro seen job
    simp only [one, result_compileJob]
    exact (failsAt_resultOfUnit stepRules limit .azureStep _ job.children).bind_ok _
  · intro position job
    exact exists_compileJob_iff limit (jobUnit scope position job.props) job

/-! ### Stages -/

theorem exists_compileStage_iff (limit position : Nat) (stage : Primitive ρ) :
    (∃ value, (compileStage limit position stage).result = .ok value) ↔ StageSound limit stage := by
  rw [result_compileStage, exists_bind_iff]
  simp only [exists_bind_ok_iff, exists_compileJobs_iff, StageSound]

theorem exists_compileStages_iff (limit position : Nat) (stages : List (Primitive ρ)) :
    (∃ values, (compileStages limit position stages).result = .ok values) ↔
      ∀ stage ∈ stages, StageSound limit stage := by
  have hstage : ∀ stage : Primitive ρ, (∃ document, IsStage limit stage document) ↔
      StageSound limit stage := by
    intro stage
    simp only [← exists_compileStage_iff limit 0, result_compileStage_eq_ok_iff]
  simp only [result_compileStages_eq_ok_iff, exists_forall₂_iff, hstage]

theorem failsAt_compileStages (limit : Nat) (seen stages : List (Primitive ρ)) :
    FailsAt limit (compileStages limit (seen.length + 1) stages).result
      (StagesReach limit seen stages) := by
  let one (position : Nat) (stage : Primitive ρ) : Except Error Value :=
    (compileStage limit position stage).result
  let row (position : Nat) (stages : List (Primitive ρ)) : Except Error (List Value) :=
    (compileStages limit position stages).result
  apply FailsAt.row one row (fun _ => rfl) (result_compileStages_cons limit)
  · intro seen stage
    simp only [one, result_compileStage]
    apply FailsAt.expanding
    intro nodes
    exact (failsAt_compileJobs limit _ [] (Primitive.ofKind .azureJob nodes)).bind_ok _
  · intro position stage
    exact exists_compileStage_iff limit position stage

/-! ### Whole pipelines -/

theorem failsAt_levelOfNodes (limit : Nat) (nodes : List (Node ρ)) :
    FailsAt limit (levelOfNodes limit nodes) (LevelReaches limit nodes) := by
  rw [levelOfNodes, LevelReaches]
  split
  · exact (failsAt_compileStages limit [] (Primitive.ofKind .azureStage nodes)).bind_ok _
  · split
    · exact (failsAt_compileJobs limit none [] (Primitive.ofKind .azureJob nodes)).bind_ok _
    · split
      · rw [result_compileSteps]
        have hsteps := stepRules.failsAt_enabledFrom limit "pipeline" []
          (Primitive.ofKind .azureStep nodes)
        exact (hsteps.bind_ok _).bind_ok _
      · rename_i hnone
        rw [not_not] at hnone
        rw [hnone]
        exact FailsAt.ok none fun _ => not_reached_nil

theorem failsAt_compile (limit : Nat) (root : Primitive ρ) :
    FailsAt limit (compile limit root).result (Reaches limit root) := by
  rw [result_compile]
  apply FailsAt.expanding
  intro nodes
  exact (failsAt_levelOfNodes limit nodes).bind_ok _

/-- The parts of a pipeline that are compiled are sound; those of levels that lose may be anything. -/
structure LevelSound (limit : Nat) (nodes : List (Node ρ)) : Prop where
  stages : ∀ stage ∈ Primitive.ofKind .azureStage nodes, StageSound limit stage
  jobs : Primitive.ofKind .azureStage nodes = [] →
    ∀ job ∈ Primitive.ofKind .azureJob nodes, UnitSound stepRules limit .azureStep job.children
  steps : Primitive.ofKind .azureStage nodes = [] → Primitive.ofKind .azureJob nodes = [] →
    ∀ step ∈ Primitive.ofKind .azureStep nodes, stepRules.Sound step

theorem levelSound_of_levelOfNodes {limit : Nat} {nodes : List (Node ρ)}
    (h : ∃ level, levelOfNodes limit nodes = .ok level) : LevelSound limit nodes := by
  rw [levelOfNodes] at h
  split at h
  · rename_i hstage
    rw [exists_bind_ok_iff, exists_compileStages_iff] at h
    exact ⟨h, fun hnone => absurd hnone hstage, fun hnone => absurd hnone hstage⟩
  · rename_i hstage
    rw [not_not] at hstage
    have hstages : ∀ stage ∈ Primitive.ofKind .azureStage nodes, StageSound limit stage := by
      simp [hstage]
    split at h
    · rename_i hjob
      rw [exists_bind_ok_iff, exists_compileJobs_iff] at h
      exact ⟨hstages, fun _ => h, fun _ hnone => absurd hnone hjob⟩
    · rename_i hjob
      rw [not_not] at hjob
      refine ⟨hstages, by simp [hjob], fun _ _ => ?_⟩
      split at h
      · rw [exists_bind_ok_iff, result_compileSteps, exists_bind_ok_iff,
          StepRules.exists_enabledFrom_iff] at h
        exact h
      · rename_i hstep
        rw [not_not] at hstep
        simp [hstep]

/-- The first violation is that of a compiled step. -/
theorem Reaches.broken {limit : Nat} {root : Primitive ρ} {error : Error}
    (h : Reaches limit root (.violation error)) : Broken limit root := by
  cases h with
  | @inside nodes _ hexpand hlevel =>
    rw [LevelReaches] at hlevel
    split at hlevel
    · rcases Reached.exists_mem hlevel with ⟨_, stage, hstage, hinside⟩
      cases hinside with
      | @inside inner _ hinner hjobs =>
        rcases Reached.exists_mem hjobs with ⟨_, job, hjob, hunit⟩
        rcases hunit.exists_step with ⟨leaves, hleaves, step, hstep, hbroken⟩
        exact ⟨step, .job (.staged hexpand hstage hinner hjob) hleaves hstep, hbroken⟩
    · rename_i hstage
      rw [not_not] at hstage
      split at hlevel
      · rcases Reached.exists_mem hlevel with ⟨_, job, hjob, hunit⟩
        rcases hunit.exists_step with ⟨leaves, hleaves, step, hstep, hbroken⟩
        exact ⟨step, .job (.direct hexpand hstage hjob) hleaves hstep, hbroken⟩
      · rename_i hjob
        rw [not_not] at hjob
        rcases StepRules.exists_step_of_stepsReach hlevel with ⟨step, hstep, hbroken⟩
        exact ⟨step, .direct hexpand hstage hjob hstep, hbroken⟩

theorem levelSound_of_compile {limit : Nat} {root : Primitive ρ} {result : Option Value}
    (hok : (compile limit root).result = .ok result) {nodes : List (Node ρ)}
    (hexpand : (expandAll limit root.children).result = .ok nodes) : LevelSound limit nodes := by
  rw [result_compile, hexpand, Run.ok_bind, Run.bind_eq_ok_iff] at hok
  rcases hok with ⟨level, hlevel, -⟩
  exact levelSound_of_levelOfNodes ⟨level, hlevel⟩

theorem IsJobOf.sound {limit : Nat} {root job : Primitive ρ} (hjob : IsJobOf limit root job)
    {result : Option Value} (hok : (compile limit root).result = .ok result) :
    UnitSound stepRules limit .azureStep job.children := by
  cases hjob with
  | staged hexpand hstage hinner hjob =>
    rcases (levelSound_of_compile hok hexpand).stages _ hstage with ⟨inner, hinner', hjobs⟩
    cases hinner.symm.trans hinner'
    exact hjobs _ hjob
  | direct hexpand hstage hjob => exact (levelSound_of_compile hok hexpand).jobs hstage _ hjob

/-- No document is made where a rule is broken. -/
theorem Broken.not_ok {limit : Nat} {root : Primitive ρ} (h : Broken limit root)
    (result : Option Value) : (compile limit root).result ≠ .ok result := by
  intro hok
  rcases h with ⟨step, hstep, henabled, hexclusive⟩
  cases hstep with
  | job hjob hleaves hstep => exact hexclusive ((hjob.sound hok).exclusive hleaves hstep henabled)
  | direct hexpand hstage hjob hstep =>
    have hsound := (levelSound_of_compile hok hexpand).steps hstage hjob step hstep
    exact hexclusive (hsound.exclusive henabled)

end Azure

/-! ## Both platforms -/

/--
Compiling fails with an error exactly if children that are reached fail to expand with it, or it is the
error of the first violation; and there is an error exactly if such an expansion fails or a rule is
broken anywhere in the part that is compiled.  So if all expansions succeed, a broken rule is the only
reason to fail, and steps of nodes that are left out are none.
-/
theorem compile_fails_iff (limit : Nat) (root : Primitive ρ) :
    ((∀ error, (Github.compile limit root).result = .error error ↔
        ExpansionFails limit (Github.Reaches limit root) error ∨
          Github.Reaches limit root (.violation error)) ∧
      ((∃ error, (Github.compile limit root).result = .error error) ↔
        (∃ error, ExpansionFails limit (Github.Reaches limit root) error) ∨
          Github.Broken limit root)) ∧
    ((∀ error, (Azure.compile limit root).result = .error error ↔
        ExpansionFails limit (Azure.Reaches limit root) error ∨
          Azure.Reaches limit root (.violation error)) ∧
      ((∃ error, (Azure.compile limit root).result = .error error) ↔
        (∃ error, ExpansionFails limit (Azure.Reaches limit root) error) ∨
          Azure.Broken limit root)) := by
  have hgithub := Github.failsAt_compile limit root
  have hazure := Azure.failsAt_compile limit root
  refine ⟨⟨hgithub.eq_error_iff, ?_⟩, ⟨hazure.eq_error_iff, ?_⟩⟩
  · exact hgithub.exists_error_iff (fun _ => Github.Reaches.broken) Github.Broken.not_ok
  · exact hazure.exists_error_iff (fun _ => Azure.Reaches.broken) Azure.Broken.not_ok

end PipelineTree
