import PipelineTree.Platform.Github
import PipelineTree.Proofs.Platform.Parts
import PipelineTree.Proofs.Value.Entries

/-!
# Workflow — the documents of workflows

`Github.IsWorkflow` describes the document of a workflow level by level, from the expanded children of
the root down to the steps.  `Github.compile_workflow` says that compiling a workflow gives exactly the
document so described, and gives none exactly if expansion succeeds without yielding a job.
-/

namespace PipelineTree

namespace Github

variable {ρ : Type} [ExpansionRule ρ]

/-! ## The parts of a workflow -/

/-- The key of the job at a position: its scalar `id`, or one made from the position. -/
inductive JobKey (position : Nat) (props : Props) : String → Prop where
  | missing : props.value? "id" = none → JobKey position props s!"job-{position}"
  | text {id : String} : props.value? "id" = some (.text id) → JobKey position props id
  | number {id : Number} : props.value? "id" = some (.number id) → JobKey position props id.text
  | bool {id : Bool} : props.value? "id" = some (.bool id) → JobKey position props (boolText id)

/-- The document of a step. -/
def IsStep (step : Primitive ρ) (document : Value) : Prop :=
  step.props.Record stepFields [] document

/-- The entry for the steps of a job; a job that calls a workflow and has no steps has none. -/
def IsStepsEntry (props : Props) (steps : List (Primitive ρ)) (entries : Mapping) : Prop :=
  if steps = [] ∧ props.sets "uses" then entries = []
  else ∃ values, List.Forall₂ IsStep steps values ∧ entries = [(.text "steps", .sequence values)]

/-- The document of a job. -/
def IsJob (limit : Nat) (job : Primitive ρ) (document : Value) : Prop :=
  ∃ steps more, UnitSteps stepRules limit .githubStep job.children steps ∧
    IsStepsEntry job.props steps more ∧ job.props.Record jobFields more document

/-- The entry for the job at a position. -/
def IsJobEntry (limit : Nat) (job : Primitive ρ × Nat) (entry : Value × Value) : Prop :=
  ∃ id, JobKey job.2 job.1.props id ∧ entry.1 = .text id ∧ IsJob limit job.1 entry.2

/-- The document of a workflow. -/
def IsWorkflow (limit : Nat) (root : Primitive ρ) (document : Value) : Prop :=
  ∃ nodes jobs, (expandAll limit root.children).result = .ok nodes ∧
    Primitive.ofKind .githubJob nodes ≠ [] ∧
    List.Forall₂ (IsJobEntry limit) ((Primitive.ofKind .githubJob nodes).zipIdx 1) jobs ∧
    Entries.Distinct jobs ∧
    root.props.Record workflowFields [(.text "jobs", .mapping jobs)] document

/-! ## Jobs -/

theorem jobId_eq_ok_iff (position : Nat) (props : Props) (id : String) :
    jobId position props = .ok id ↔ JobKey position props id := by
  constructor
  · intro h
    unfold jobId at h
    split at h
    · cases h; exact .missing ‹_›
    · cases h; exact .text ‹_›
    · cases h; exact .number ‹_›
    · cases h; exact .bool ‹_›
    · cases h
  · rintro (h | h | h | h) <;> simp [jobId, h]

theorem JobKey.unique {position : Nat} {props : Props} {id id' : String}
    (h : JobKey position props id) (h' : JobKey position props id') : id = id' := by
  have hid := (jobId_eq_ok_iff position props id).2 h
  have hid' := (jobId_eq_ok_iff position props id').2 h'
  exact Except.ok.inj (hid.symm.trans hid')

omit [ExpansionRule ρ] in
theorem forall₂_isStep_iff (steps : List (Primitive ρ)) (values : List Value) :
    List.Forall₂ IsStep steps values ↔ values = steps.map stepValue :=
  Props.forall₂_record_iff stepFields steps values

omit [ExpansionRule ρ] in
theorem jobValue_eq_iff (props : Props) (steps : List (Primitive ρ)) (document : Value) :
    jobValue props steps = document ↔
      ∃ more, IsStepsEntry props steps more ∧ props.Record jobFields more document := by
  rw [eq_comm]
  by_cases hcall : steps = [] ∧ props.sets "uses" = true
  · simp [IsStepsEntry, Props.record_iff, jobValue, hcall]
  · have hcond : (steps.isEmpty && props.sets "uses") = false := by
      simpa [List.isEmpty_iff] using hcall
    simp [IsStepsEntry, Props.record_iff, jobValue, hcall, hcond, documentWith, forall₂_isStep_iff]

theorem result_compileJob (limit : Nat) (id : String) (job : Primitive ρ) :
    (compileJob limit id job).result = (do
      let steps ← resultOfUnit stepRules limit .githubStep s!"job '{id}'" job.children
      .ok (jobValue job.props steps)) := by
  have hcompile : compileJob limit id job =
      ((collectLeaves limit .githubStep job.children).andThen
        (stepRules.enabled s!"job '{id}'")).andThen fun steps => .done (jobValue job.props steps) := by
    rw [Run.andThen_assoc]
    rfl
  rw [hcompile, Run.result_andThen, result_unitSteps]
  rfl

theorem result_compileJob_eq_ok_iff (limit : Nat) (id : String) (job : Primitive ρ)
    (document : Value) :
    (compileJob limit id job).result = .ok document ↔ IsJob limit job document := by
  rw [result_compileJob, Run.bind_eq_ok_iff]
  simp only [resultOfUnit_eq_ok_iff, Except.ok.injEq, jobValue_eq_iff]
  constructor
  · rintro ⟨steps, hsteps, more, hentry, hrecord⟩
    exact ⟨steps, more, hsteps, hentry, hrecord⟩
  · rintro ⟨steps, more, hsteps, hentry, hrecord⟩
    exact ⟨steps, hsteps, more, hentry, hrecord⟩

/-! ## Workflows -/

/-- Entries behind those of earlier jobs; no key is used twice. -/
def Extends (compiled added : Mapping) : Prop :=
  Entries.Distinct added ∧ ∀ e ∈ compiled, ∀ f ∈ added, (e.1 == f.1) = false

theorem extends_cons_iff {compiled added : Mapping} {entry : Value × Value} :
    Extends compiled (entry :: added) ↔
      Entries.contains entry.1 compiled = false ∧ Extends (compiled ++ [entry]) added := by
  simp only [Extends, Entries.Distinct, Entries.contains, List.pairwise_cons, List.any_eq_false,
    List.mem_append, List.mem_cons, List.not_mem_nil, or_false]
  constructor
  · -- The new entry moves to those compiled before, where the later ones are compared with it.
    rintro ⟨⟨hentry, hadded⟩, hcompiled⟩
    refine ⟨fun e he => by simp [hcompiled e he entry (.inl rfl)], hadded, ?_⟩
    rintro e (he | rfl) f hf
    · exact hcompiled e he f (.inr hf)
    · exact hentry f hf
  · rintro ⟨hfresh, hadded, hcompiled⟩
    refine ⟨⟨fun f hf => hcompiled entry (.inr rfl) f hf, hadded⟩, ?_⟩
    rintro e he f (rfl | hf)
    · simpa using hfresh e he
    · exact hcompiled e (.inl he) f hf

/-- The result of compiling one job behind others: its entry. -/
def resultOfJob (limit position : Nat) (compiled : Mapping) (job : Primitive ρ) :
    Except Error (Value × Value) := do
  let id ← jobId position job.props
  if Entries.contains (.text id) compiled then
    .error (.validation s!"job '{id}'" "duplicate job id; ids must be unique within a workflow")
  else do
    let value ← (compileJob limit id job).result
    .ok (.text id, value)

theorem result_compileJobs_cons (limit position : Nat) (compiled : Mapping) (job : Primitive ρ)
    (jobs : List (Primitive ρ)) :
    (compileJobs limit position compiled (job :: jobs)).result = (do
      let entry ← resultOfJob limit position compiled job
      (compileJobs limit (position + 1) (compiled ++ [entry]) jobs).result) := by
  rw [compileJobs, Run.bind_eq, Run.result_andThen, Run.result_ofExcept, resultOfJob]
  cases jobId position job.props with
  | error error => rfl
  | ok id =>
    simp only [Run.ok_bind]
    split
    · rfl
    · rw [Run.bind_eq, Run.result_andThen]
      cases (compileJob limit id job).result <;> rfl

theorem resultOfJob_eq_ok_iff (limit position : Nat) (compiled : Mapping) (job : Primitive ρ)
    (entry : Value × Value) :
    resultOfJob limit position compiled job = .ok entry ↔
      IsJobEntry limit (job, position) entry ∧ Entries.contains entry.1 compiled = false := by
  rw [resultOfJob, Run.bind_eq_ok_iff]
  simp only [jobId_eq_ok_iff]
  constructor
  · rintro ⟨id, hid, hrest⟩
    split at hrest
    · cases hrest
    · rename_i hfresh
      rcases Run.bind_eq_ok_iff.1 hrest with ⟨document, hdocument, hentry⟩
      cases hentry
      have hjob := (result_compileJob_eq_ok_iff limit id job document).1 hdocument
      exact ⟨⟨id, hid, rfl, hjob⟩, by simpa using hfresh⟩
  · rintro ⟨⟨id, hid, hkey, hjob⟩, hfresh⟩
    rw [hkey] at hfresh
    refine ⟨id, hid, ?_⟩
    rw [hfresh, if_neg Bool.false_ne_true, (result_compileJob_eq_ok_iff limit id job entry.2).2 hjob,
      ← hkey]
    rfl

theorem result_compileJobs_eq_ok_iff (limit position : Nat) (compiled : Mapping)
    (jobs : List (Primitive ρ)) (final : Mapping) :
    (compileJobs limit position compiled jobs).result = .ok final ↔
      ∃ added, List.Forall₂ (IsJobEntry limit) (jobs.zipIdx position) added ∧
        Extends compiled added ∧ final = compiled ++ added := by
  -- The induction is on the jobs that are left; the entries of earlier ones accumulate.
  induction jobs generalizing position compiled with
  | nil =>
    constructor
    · rintro ⟨⟩
      exact ⟨[], .nil, ⟨.nil, by simp⟩, by simp⟩
    · rintro ⟨added, hadded, -, rfl⟩
      cases hadded
      simp [compileJobs]
  | cons job jobs ih =>
    rw [result_compileJobs_cons, Run.bind_eq_ok_iff]
    simp only [resultOfJob_eq_ok_iff, and_assoc]
    constructor
    · rintro ⟨entry, hentry, hfresh, hrest⟩
      rcases (ih _ _).1 hrest with ⟨added, hadded, hextends, rfl⟩
      refine ⟨entry :: added, .cons hentry hadded, ?_, by simp⟩
      exact extends_cons_iff.2 ⟨hfresh, hextends⟩
    · rintro ⟨_, hadded, hextends, rfl⟩
      rcases List.forall₂_cons_left_iff.1 hadded with ⟨entry, added, hentry, hrest, rfl⟩
      rcases extends_cons_iff.1 hextends with ⟨hfresh, hothers⟩
      exact ⟨entry, hentry, hfresh, (ih _ _).2 ⟨added, hrest, hothers, by simp⟩⟩

/-- The result of compiling expanded children. -/
def resultOfNodes (limit : Nat) (props : Props) (nodes : List (Node ρ)) :
    Except Error (Option Value) :=
  if Primitive.ofKind .githubJob nodes = [] then .ok none
  else do
    let jobs ← (compileJobs limit 1 [] (Primitive.ofKind .githubJob nodes)).result
    .ok (some (documentWith (props.select workflowFields) "jobs" (.mapping jobs)))

/-- The shortcut for a root without children agrees with the long path. -/
theorem result_compile (limit : Nat) (root : Primitive ρ) :
    (compile limit root).result =
      (expandAll limit root.children).result >>= resultOfNodes limit root.props := by
  rcases root with ⟨kind, props, children⟩
  cases children with
  | nil =>
    -- Nothing expands to nothing, which holds no job.
    rw [result_expandAll_nil]
    rfl
  | cons child children =>
    simp only [compile, List.isEmpty_cons, Bool.false_eq_true, if_false, Run.bind_eq,
      Run.result_andThen, Run.result_report, Run.ok_bind]
    congr 1
    funext nodes
    by_cases hjobs : Primitive.ofKind .githubJob nodes = []
    · simp [resultOfNodes, hjobs]
    · simp [resultOfNodes, hjobs]

theorem resultOfNodes_eq_none_iff (limit : Nat) (props : Props) (nodes : List (Node ρ)) :
    resultOfNodes limit props nodes = .ok none ↔ Primitive.ofKind .githubJob nodes = [] := by
  by_cases hjobs : Primitive.ofKind .githubJob nodes = []
  · simp [resultOfNodes, hjobs]
  · simp [resultOfNodes, hjobs, Run.bind_eq_ok_iff]

theorem resultOfNodes_eq_some_iff (limit : Nat) (props : Props) (nodes : List (Node ρ))
    (document : Value) :
    resultOfNodes limit props nodes = .ok (some document) ↔
      ∃ jobs, Primitive.ofKind .githubJob nodes ≠ [] ∧
        List.Forall₂ (IsJobEntry limit) ((Primitive.ofKind .githubJob nodes).zipIdx 1) jobs ∧
        Entries.Distinct jobs ∧
        props.Record workflowFields [(.text "jobs", .mapping jobs)] document := by
  by_cases hjobs : Primitive.ofKind .githubJob nodes = []
  · simp [resultOfNodes, hjobs]
  · simp only [resultOfNodes, if_neg hjobs, Run.bind_eq_ok_iff, result_compileJobs_eq_ok_iff,
      Except.ok.injEq, Option.some.injEq, Props.record_iff, documentWith]
    constructor
    · rintro ⟨final, ⟨jobs, hentries, ⟨hdistinct, -⟩, hfinal⟩, rfl⟩
      rw [hfinal, List.nil_append]
      exact ⟨jobs, hjobs, hentries, hdistinct, rfl⟩
    · rintro ⟨jobs, -, hentries, hdistinct, rfl⟩
      exact ⟨jobs, ⟨jobs, hentries, ⟨hdistinct, by simp⟩, by simp⟩, rfl⟩

theorem result_compile_eq_some_iff (limit : Nat) (root : Primitive ρ) (document : Value) :
    (compile limit root).result = .ok (some document) ↔ IsWorkflow limit root document := by
  rw [result_compile, Run.bind_eq_ok_iff, IsWorkflow]
  refine exists_congr ?_
  intro nodes
  rw [resultOfNodes_eq_some_iff]
  exact exists_and_left.symm

/--
Compiling a workflow gives no document exactly if expansion succeeds without yielding a job, and
otherwise, if it succeeds, the one that `IsWorkflow` describes.
-/
theorem compile_workflow (limit : Nat) (root : Primitive ρ) :
    ((compile limit root).result = .ok none ↔
      ∃ nodes, (expandAll limit root.children).result = .ok nodes ∧
        ∀ node ∈ nodes, node.isKind .githubJob = false) ∧
    ∀ document, (compile limit root).result = .ok (some document) ↔
      IsWorkflow limit root document := by
  constructor
  · rw [result_compile]
    simp only [Run.bind_eq_ok_iff, resultOfNodes_eq_none_iff, Primitive.ofKind_eq_nil_iff]
  · exact result_compile_eq_some_iff limit root

end Github

end PipelineTree
