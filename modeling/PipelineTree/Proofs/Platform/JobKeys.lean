import PipelineTree.Authoring.Tree
import PipelineTree.Proofs.Platform.Workflow
import PipelineTree.Proofs.Value.Renaming

/-!
# Job keys — the ids of jobs in the document that is written

Before a workflow is written, its keys are renamed at every depth, and the ids of jobs are keys too.
`Github.jobs_renamed` says which jobs come out of this unharmed: every job keeps its entry, its place and
its id exactly if no id is a spelling of the table, and an id that `needs` may name is still a key exactly
if it is none.  `Github.job_lost` is a workflow that loses a job.
-/

namespace PipelineTree

namespace Github

variable {ρ : Type} [ExpansionRule ρ]

/--
What is written for a job: an entry under the job's own id whose `needs` names what the job's `needs`
names.
-/
def KeepsJob (job : Primitive ρ × Nat) (entry : Value × Value) : Prop :=
  ∃ id, JobKey job.2 job.1.props id ∧ entry.1 = .text id ∧
    ∀ other, (∃ needs, entry.2.field? "needs" = some needs ∧ needs.Names other) ↔
      ∃ needs, job.1.props.value? "needs" = some needs ∧ needs.Names other

theorem renames_closed : renames.Closed := by decide

/-! ## The document of a job -/

theorem needs_rename {limit : Nat} {job : Primitive ρ} {document : Value}
    (h : IsJob limit job document) :
    (renames.rename document).field? "needs" = (job.props.value? "needs").map renames.rename := by
  rcases h with ⟨steps, more, -, hmore, hrecord⟩
  have hdocument := Props.record_iff.1 hrecord
  -- The only entry behind the listed properties is the one for the steps.
  have hsteps : more.reverse.lookup (.text "needs") = none := by
    rw [IsStepsEntry] at hmore
    split at hmore
    · rw [hmore]
      rfl
    · rcases hmore with ⟨values, -, rfl⟩
      rfl
  have hneeds : (job.props.select jobFields).reverse.lookup (.text "needs") =
      job.props.value? "needs" := by
    have hreverse : (job.props.select jobFields).reverse = job.props.select jobFields.reverse := by
      rw [Props.select, Props.select, List.filterMap_reverse]
    rw [hreverse, Props.lookup_select, if_pos (by decide)]
  rw [hdocument, RenameTable.field?_rename_mapping (by decide), List.reverse_append,
    List.lookup_append, hsteps, Option.none_or, hneeds]

theorem keepsJob_rename {limit : Nat} {job : Primitive ρ × Nat} {entry : Value × Value}
    (h : IsJobEntry limit job entry) : KeepsJob job (entry.1, renames.rename entry.2) := by
  rcases h with ⟨id, hid, hkey, hjob⟩
  refine ⟨id, hid, hkey, ?_⟩
  intro other
  simp only [needs_rename hjob, Option.map_eq_some_iff]
  constructor
  · rintro ⟨_, ⟨needs, hneeds, rfl⟩, hother⟩
    exact ⟨needs, hneeds, RenameTable.names_rename_iff.1 hother⟩
  · rintro ⟨needs, hneeds, hother⟩
    exact ⟨_, ⟨needs, hneeds, rfl⟩, RenameTable.names_rename_iff.2 hother⟩

/-! ## The jobs of a document -/

theorem jobs_rename (props : Props) (jobs : Mapping) :
    (renames.rename (.mapping (props.select workflowFields ++ [(.text "jobs", .mapping jobs)]))).field?
        "jobs" = some (.mapping (Entries.ofList (renames.renameEntries jobs))) := by
  rw [RenameTable.field?_rename_mapping (by decide), List.reverse_append, List.lookup_append]
  rfl

theorem forall₂_keepsJob_iff {limit : Nat} {jobs : List (Primitive ρ × Nat)} {entries : Mapping}
    (h : List.Forall₂ (IsJobEntry limit) jobs entries) (hdistinct : Entries.Distinct entries) :
    List.Forall₂ KeepsJob jobs (Entries.ofList (renames.renameEntries entries)) ↔
      ∀ job ∈ jobs, ∀ id, JobKey job.2 job.1.props id → ¬renames.Respells id := by
  constructor
  · -- No key of the renamed entries is a spelling, so an id that is kept is none either.
    intro hkept job hjob id hid
    rcases exists_of_mem_left hkept hjob with ⟨entry, hentry, id', hid', hkey, -⟩
    rw [hid.unique hid']
    exact renames_closed.not_respells_key hentry hkey
  · intro hnone
    have hkeys : ∀ entry ∈ entries, ∃ name, entry.1 = .text name ∧ ¬renames.Respells name := by
      intro entry hentry
      rcases exists_of_mem_right h hentry with ⟨job, hjob, id, hid, hkey, -⟩
      exact ⟨id, hkey, hnone job hjob id hid⟩
    rw [RenameTable.renameEntries_keys hdistinct hkeys, List.forall₂_map_right_iff]
    exact h.imp fun job entry hentry => keepsJob_rename hentry

theorem exists_key_iff {limit : Nat} {jobs : List (Primitive ρ × Nat)} {entries : Mapping}
    (h : List.Forall₂ (IsJobEntry limit) jobs entries) {job : Primitive ρ × Nat} (hjob : job ∈ jobs)
    {id : String} (hid : JobKey job.2 job.1.props id) :
    (∃ entry ∈ Entries.ofList (renames.renameEntries entries), entry.1 = .text id) ↔
      ¬renames.Respells id := by
  constructor
  · rintro ⟨entry, hentry, hkey⟩
    exact renames_closed.not_respells_key hentry hkey
  · intro hnone
    rcases exists_of_mem_left h hjob with ⟨entry, hentry, id', hid', hkey, -⟩
    have hrenamed : renames.renameKey entry.1 = .text id := by
      rw [hkey, ← hid.unique hid', RenameTable.renameKey, RenameTable.apply_eq_self hnone]
    -- The entry is written under the id itself, whatever else is written there.
    have hwritten : ∃ e ∈ (renames.renameEntries entries).reverse, e.1 = .text id := by
      refine ⟨(renames.renameKey entry.1, renames.rename entry.2), ?_, hrenamed⟩
      rw [List.mem_reverse, RenameTable.renameEntries_eq_map]
      exact List.mem_map_of_mem hentry
    rw [← Entries.lookup_text_isSome_iff, Entries.lookup_ofList_text]
    exact Entries.lookup_text_isSome_iff.2 hwritten

/--
The jobs of a workflow as they are written.  There is one entry for each, in the order of the jobs, under
the job's own id and with what it needs unchanged, exactly if no id is a spelling that the table replaces;
and each id, which `needs` may name, is a key of the written jobs exactly if it is no such spelling.
-/
theorem jobs_renamed {limit : Nat} {root : Primitive ρ} {document : Value}
    (hcompile : (compile limit root).result = .ok (some document)) :
    ∃ nodes written, (expandAll limit root.children).result = .ok nodes ∧
      (renames.rename document).field? "jobs" = some (.mapping written) ∧
      (List.Forall₂ KeepsJob ((Primitive.ofKind .githubJob nodes).zipIdx 1) written ↔
        ∀ job ∈ (Primitive.ofKind .githubJob nodes).zipIdx 1, ∀ id,
          JobKey job.2 job.1.props id → ¬renames.Respells id) ∧
      ∀ job ∈ (Primitive.ofKind .githubJob nodes).zipIdx 1, ∀ id, JobKey job.2 job.1.props id →
        ((∃ entry ∈ written, entry.1 = .text id) ↔ ¬renames.Respells id) := by
  have hworkflow := (result_compile_eq_some_iff limit root document).1 hcompile
  rcases hworkflow with ⟨nodes, entries, hnodes, -, hentries, hdistinct, hrecord⟩
  have hdocument := Props.record_iff.1 hrecord
  refine ⟨nodes, Entries.ofList (renames.renameEntries entries), hnodes, ?_, ?_, ?_⟩
  · rw [hdocument]
    exact jobs_rename root.props entries
  · exact forall₂_keepsJob_iff hentries hdistinct
  · intro job hjob id hid
    exact exists_key_iff hentries hjob hid

/-- The children of a workflow that are primitives are its expanded children. -/
theorem result_compile_primitives (limit : Nat) {root : Primitive ρ}
    (h : ∀ node ∈ root.children, node.primitive?.isSome = true) :
    (compile limit root).result = resultOfNodes limit root.props root.children := by
  rw [result_compile, result_expandAll_primitives limit h, Run.ok_bind]

/-- One step that runs a command. -/
def stepThatRuns (command : String) : Node TemplateUse :=
  .primitive .githubStep [("run", .text command)] []

/-- A job with an id that runs a command. -/
def jobThatRuns (id : Value) (command : String) : Node TemplateUse :=
  .primitive .githubJob [("id", id)] [stepThatRuns command]

theorem result_expandAll_stepThatRuns (command : String) :
    (expandAll 0 [stepThatRuns command]).result = .ok [stepThatRuns command] := by
  apply result_expandAll_primitives
  intro node hnode
  rw [List.mem_singleton.1 hnode]
  rfl

/-- A workflow in which one job has a number for an id and one has none, and the last needs all others. -/
def releaseWorkflow : Primitive TemplateUse where
  kind := .githubWorkflow
  props := [("runName", .text "Release")]
  children :=
    [ jobThatRuns (.text "build") "make",
      jobThatRuns (.number (.int 7)) "make test",
      .primitive .githubJob [] [],
      .primitive .githubJob
        [ ("id", .text "deploy"),
          ("needs", .sequence [.text "build", .text "7", .text "job-3"]) ]
        [stepThatRuns "make deploy"] ]

theorem compile_releaseWorkflow :
    ∃ document, (compile 0 releaseWorkflow).result = .ok (some document) := by
  have hjobs : Primitive.ofKind .githubJob releaseWorkflow.children =
      releaseWorkflow.children.filterMap Node.primitive? := rfl
  have hempty : (expandAll 0 ([] : List (Node TemplateUse))).result = .ok [] :=
    result_expandAll_nil 0
  rw [result_compile_primitives 0 (by decide), resultOfNodes,
    if_neg (by rw [hjobs]; simp [releaseWorkflow, Node.primitive?]), hjobs]
  simp only [releaseWorkflow, jobThatRuns, List.filterMap, Node.primitive?,
    result_compileJobs_cons, resultOfJob, result_compileJob, resultOfUnit,
    result_expandAll_stepThatRuns, hempty]
  exact ⟨_, rfl⟩

theorem jobs_renamed_releaseWorkflow :
    ∃ document, (compile 0 releaseWorkflow).result = .ok (some document) ∧
      ∃ nodes written, (expandAll 0 releaseWorkflow.children).result = .ok nodes ∧
        (renames.rename document).field? "jobs" = some (.mapping written) ∧
        (List.Forall₂ KeepsJob ((Primitive.ofKind .githubJob nodes).zipIdx 1) written ↔
          ∀ job ∈ (Primitive.ofKind .githubJob nodes).zipIdx 1, ∀ id,
            JobKey job.2 job.1.props id → ¬renames.Respells id) ∧
        ∀ job ∈ (Primitive.ofKind .githubJob nodes).zipIdx 1, ∀ id, JobKey job.2 job.1.props id →
          ((∃ entry ∈ written, entry.1 = .text id) ↔ ¬renames.Respells id) := by
  rcases compile_releaseWorkflow with ⟨document, hcompile⟩
  exact ⟨document, hcompile, jobs_renamed hcompile⟩

/-- A workflow with an id that is renamed, and another one that it is renamed to. -/
def collidingWorkflow : Primitive TemplateUse where
  kind := .githubWorkflow
  props := []
  children := [jobThatRuns (.text "runsOn") "make", jobThatRuns (.text "runs-on") "make test"]

/-- What is written for a job that only has a step. -/
def valueThatRuns (command : String) : Value :=
  .mapping [(.text "steps", .sequence [.mapping [(.text "run", .text command)]])]

theorem compile_collidingWorkflow :
    (compile 0 collidingWorkflow).result =
      .ok (some (.mapping [(.text "jobs", .mapping
        [ (.text "runsOn", valueThatRuns "make"),
          (.text "runs-on", valueThatRuns "make test") ])])) := by
  have hjobs : Primitive.ofKind .githubJob collidingWorkflow.children =
      collidingWorkflow.children.filterMap Node.primitive? := rfl
  rw [result_compile_primitives 0 (by decide), resultOfNodes,
    if_neg (by rw [hjobs]; simp [collidingWorkflow, jobThatRuns, Node.primitive?]), hjobs]
  simp only [collidingWorkflow, jobThatRuns, List.filterMap, Node.primitive?,
    result_compileJobs_cons, resultOfJob, result_compileJob, resultOfUnit,
    result_expandAll_stepThatRuns]
  rfl

/-- Two jobs with ids of their own are compiled, and there is one entry in what is written. -/
theorem job_lost :
    ∃ nodes document, (expandAll 0 collidingWorkflow.children).result = .ok nodes ∧
      (Primitive.ofKind .githubJob nodes).length = 2 ∧
      (compile 0 collidingWorkflow).result = .ok (some document) ∧
      (renames.rename document).field? "jobs" =
        some (.mapping [(.text "runs-on", valueThatRuns "make test")]) := by
  have hexpand : (expandAll 0 collidingWorkflow.children).result = .ok collidingWorkflow.children :=
    result_expandAll_primitives 0 (by decide)
  exact ⟨_, _, hexpand, rfl, compile_collidingWorkflow, rfl⟩

end Github

end PipelineTree
