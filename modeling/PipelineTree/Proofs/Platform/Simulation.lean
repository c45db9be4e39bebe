import PipelineTree.Platform.Registry
import PipelineTree.Proofs.Error.Comparison
import PipelineTree.Proofs.Platform.Pipeline
import PipelineTree.Proofs.Platform.Workflow

/-!
# Simulation — trees that are rendered alike

Of a primitive, platforms read a few properties and the expansion of its children, and nothing else.  A
`Simulation` relates primitives that agree in both, as far as a `Comparison` shows; `Simulation.render`
says that related roots are then rendered alike.

Of what the children of a job expand to, platforms only see the steps that count.  A `UnitSimulation` asks
no more than that of jobs; every `Simulation` is one (`Simulation.byUnits`), and the platforms are gone
through for the weaker notion.
-/

namespace PipelineTree

/-! ## Properties that are read -/

/-- The properties that platforms read of a primitive of a kind. -/
def Kind.reads : Kind → List String
  | .githubWorkflow => Github.workflowFields
  | .githubJob => "id" :: Github.jobFields
  | .githubStep => "disabled" :: Github.stepFields
  | .azurePipeline => Azure.pipelineFields
  | .azureStage => Azure.stageFields
  | .azureJob => Azure.jobFields
  | .azureStep => "disabled" :: Azure.stepFields

/-- The properties that step rules read. -/
def StepRules.reads (rules : StepRules) : List String :=
  "disabled" :: rules.action :: rules.script :: rules.labels

namespace Props

/-- Two bags of properties that have the same values under some names. -/
def AgreeOn (names : List String) (props props' : Props) : Prop :=
  ∀ name ∈ names, props.value? name = props'.value? name

variable {names : List String} {props props' : Props}

theorem AgreeOn.mono {fewer : List String} (h : AgreeOn names props props')
    (hfewer : fewer ⊆ names) : AgreeOn fewer props props' :=
  fun name hname => h name (hfewer hname)

theorem AgreeOn.sets {name : String} (h : AgreeOn names props props') (hname : name ∈ names) :
    props.sets name = props'.sets name := by
  rw [Props.sets, Props.sets, h name hname]

theorem AgreeOn.disabled (h : AgreeOn names props props') (hname : "disabled" ∈ names) :
    props.disabled = props'.disabled := by
  rw [Props.disabled, Props.disabled, h "disabled" hname]

theorem AgreeOn.select (h : AgreeOn names props props') : props.select names = props'.select names := by
  refine List.filterMap_congr ?_
  intro name hname
  rw [h name hname]

theorem AgreeOn.label (h : AgreeOn names props props') (position : Nat) :
    props.label names position = props'.label names position := by
  have htexts : names.filterMap props.text? = names.filterMap props'.text? := by
    refine List.filterMap_congr ?_
    intro name hname
    rw [text?, text?, h name hname]
  have hfirst : names.findSome? props.text? = names.findSome? props'.text? := by
    calc
      names.findSome? props.text? = (names.filterMap props.text?).head? :=
        List.head?_filterMap.symm
      _ = (names.filterMap props'.text?).head? := by rw [htexts]
      _ = names.findSome? props'.text? := List.head?_filterMap
  rw [Props.label, Props.label, hfirst]

theorem AgreeOn.jobId (h : AgreeOn names props props') (hname : "id" ∈ names) (position : Nat) :
    Github.jobId position props = Github.jobId position props' := by
  rw [Github.jobId, Github.jobId, h "id" hname]

end Props

/-! ## Steps -/

namespace StepRules

variable {ρ σ : Type} (C : Comparison) {rules : StepRules} {R : Primitive ρ → Primitive σ → Prop}

theorem check_congr {props props' : Props} (h : Props.AgreeOn rules.reads props props')
    (unit : String) (position : Nat) :
    rules.check unit position props = rules.check unit position props' := by
  have haction : rules.action ∈ rules.reads := by simp [reads]
  have hscript : rules.script ∈ rules.reads := by simp [reads]
  have hlabels : rules.labels ⊆ rules.reads := by
    intro name hname
    simp [reads, hname]
  rw [check, check, h.sets haction, h.sets hscript, (h.mono hlabels).label]

theorem enabledFrom_congr (hR : ∀ p q, R p q → Props.AgreeOn rules.reads p.props q.props)
    (unit : String) (position : Nat) {steps : List (Primitive ρ)} {steps' : List (Primitive σ)}
    (hsteps : List.Forall₂ R steps steps') :
    C.Holds (List.Forall₂ R) (rules.enabledFrom unit position steps).result
      (rules.enabledFrom unit position steps').result := by
  induction hsteps generalizing position with
  | nil => exact C.ok .nil
  | @cons p q steps steps' hpq _ ih =>
    have hagree := hR p q hpq
    rw [result_enabledFrom_cons, result_enabledFrom_cons, hagree.disabled (by simp [reads]),
      check_congr hagree]
    -- Positions count every step, so they advance together whether this one is kept or not.
    split
    · exact ih (position + 1)
    · refine C.bind_eq (C.of_eq _) ?_
      intro _
      exact C.bind (ih (position + 1)) fun kept kept' hkept => C.ok (.cons hpq hkept)

end StepRules

/-! ## Related trees -/

variable {ρ σ : Type}

theorem forall₂_eq_nil_iff {α β : Type} {R : α → β → Prop} {as : List α} {bs : List β}
    (h : List.Forall₂ R as bs) : as = [] ↔ bs = [] := by
  cases h <;> simp

/-- Nodes that are related primitives, or no primitives at all. -/
def Node.Matches (P : Primitive ρ → Primitive σ → Prop) (m : Node ρ) (n : Node σ) : Prop :=
  Option.Rel P m.primitive? n.primitive?

theorem Node.Matches.refl {P : Primitive ρ → Primitive ρ → Prop} (hP : ∀ p, P p p)
    (node : Node ρ) : Node.Matches P node node := by
  rw [Node.Matches]
  cases node.primitive? with
  | none => exact .none
  | some p => exact .some (hP p)

/-- Related primitives of one kind. -/
def Primitive.Alike (P : Primitive ρ → Primitive σ → Prop) (kind : Kind) (p : Primitive ρ)
    (q : Primitive σ) : Prop :=
  p.kind = kind ∧ P p q

/-- A relation of primitives of one kind that agree in the properties that are read of it. -/
structure SameReadings (P : Primitive ρ → Primitive σ → Prop) : Prop where
  kind : ∀ {p q}, P p q → p.kind = q.kind
  agree : ∀ {p q}, P p q → Props.AgreeOn p.kind.reads p.props q.props

namespace SameReadings

variable {P : Primitive ρ → Primitive σ → Prop}

theorem agree_of_alike (h : SameReadings P) {kind : Kind} {p : Primitive ρ}
    {q : Primitive σ} (hpq : Primitive.Alike P kind p q) :
    Props.AgreeOn kind.reads p.props q.props := by
  rcases hpq with ⟨rfl, hpq⟩
  exact h.agree hpq

theorem forall₂_ofKind (h : SameReadings P) (kind : Kind) {nodes : List (Node ρ)}
    {nodes' : List (Node σ)} (hnodes : List.Forall₂ (Node.Matches P) nodes nodes') :
    List.Forall₂ (Primitive.Alike P kind) (Primitive.ofKind kind nodes)
      (Primitive.ofKind kind nodes') := by
  have hprimitives : List.Forall₂ P (nodes.filterMap Node.primitive?)
      (nodes'.filterMap Node.primitive?) :=
    List.rel_filterMap (fun _ _ hmatches => hmatches) hnodes
  -- Related primitives are of one kind, so the filter keeps both or neither.
  have hkind : List.Forall₂ P (Primitive.ofKind kind nodes) (Primitive.ofKind kind nodes') := by
    refine List.rel_filter (fun p q hpq => ?_) hprimitives
    simp [h.kind hpq]
  refine (List.forall₂_and_left _ _).2 ⟨fun p hp => ?_, hkind⟩
  simpa using (List.mem_filter.1 hp).2

theorem map_select (h : SameReadings P) {kind : Kind} {names : List String}
    (hnames : names ⊆ kind.reads) {parts : List (Primitive ρ)} {parts' : List (Primitive σ)}
    (hparts : List.Forall₂ (Primitive.Alike P kind) parts parts') :
    (parts.map fun part => Value.mapping (part.props.select names)) =
      parts'.map fun part => Value.mapping (part.props.select names) := by
  induction hparts with
  | nil => rfl
  | cons hpq _ ih =>
    have hagree := (h.agree_of_alike hpq).mono hnames
    rw [List.map_cons, List.map_cons, hagree.select, ih]

theorem enabledFrom (h : SameReadings P) (C : Comparison) {rules : StepRules} {leaf : Kind}
    (hreads : rules.reads ⊆ leaf.reads) (unit : String) (position : Nat)
    {steps : List (Primitive ρ)} {steps' : List (Primitive σ)}
    (hsteps : List.Forall₂ (Primitive.Alike P leaf) steps steps') :
    C.Holds (List.Forall₂ (Primitive.Alike P leaf)) (rules.enabledFrom unit position steps).result
      (rules.enabledFrom unit position steps').result := by
  refine StepRules.enabledFrom_congr C (fun p q hpq => ?_) unit position hsteps
  exact (h.agree_of_alike hpq).mono hreads

end SameReadings

/--
A relation of primitives that agree in all that platforms look at: the kind, the properties that are read
of that kind, and what the children expand to.
-/
structure Simulation [ExpansionRule ρ] [ExpansionRule σ] (C : Comparison) (limit limit' : Nat)
    (P : Primitive ρ → Primitive σ → Prop) : Prop where
  kind : ∀ {p q}, P p q → p.kind = q.kind
  agree : ∀ {p q}, P p q → Props.AgreeOn p.kind.reads p.props q.props
  expand : ∀ {p q}, P p q →
    C.Holds (List.Forall₂ (Node.Matches P)) (expandAll limit p.children).result
      (expandAll limit' q.children).result

/--
A relation of primitives that platforms cannot tell apart.  Of a job they see the steps that count, and of
any other primitive what the children expand to.
-/
structure UnitSimulation [ExpansionRule ρ] [ExpansionRule σ] (C : Comparison) (limit limit' : Nat)
    (P : Primitive ρ → Primitive σ → Prop) : Prop extends SameReadings P where
  expand : ∀ {p q}, P p q → p.kind.role ≠ .job →
    C.Holds (List.Forall₂ (Node.Matches P)) (expandAll limit p.children).result
      (expandAll limit' q.children).result
  unit : ∀ {p q}, P p q → p.kind.role = .job →
    ∀ {rules : StepRules} {leaf : Kind} (name : String), rules.reads ⊆ leaf.reads →
      C.Holds (List.Forall₂ (Primitive.Alike P leaf)) (resultOfUnit rules limit leaf name p.children)
        (resultOfUnit rules limit' leaf name q.children)

namespace Simulation

variable [ExpansionRule ρ] [ExpansionRule σ] {C : Comparison} {limit limit' : Nat}
  {P : Primitive ρ → Primitive σ → Prop}

theorem readings (h : Simulation C limit limit' P) : SameReadings P := ⟨h.kind, h.agree⟩

/-- Where the children of jobs expand alike, the steps that count are alike. -/
theorem byUnits (h : Simulation C limit limit' P) : UnitSimulation C limit limit' P where
  toSameReadings := h.readings
  expand hpq _ := h.expand hpq
  unit hpq _ rules leaf name hreads := by
    refine C.bind (h.expand hpq) ?_
    intro nodes nodes' hnodes
    exact h.readings.enabledFrom C hreads name 1 (h.readings.forall₂_ofKind leaf hnodes)

end Simulation

namespace UnitSimulation

variable [ExpansionRule ρ] [ExpansionRule σ] {C : Comparison} {limit limit' : Nat}
  {P : Primitive ρ → Primitive σ → Prop}

theorem expand_alike (h : UnitSimulation C limit limit' P) {kind : Kind} (hrole : kind.role ≠ .job)
    {p : Primitive ρ} {q : Primitive σ} (hpq : Primitive.Alike P kind p q) :
    C.Holds (List.Forall₂ (Node.Matches P)) (expandAll limit p.children).result
      (expandAll limit' q.children).result := by
  refine h.expand hpq.2 ?_
  rwa [hpq.1]

theorem unit_alike (h : UnitSimulation C limit limit' P) {kind : Kind} (hrole : kind.role = .job)
    {rules : StepRules} {leaf : Kind} (hreads : rules.reads ⊆ leaf.reads) (name : String)
    {p : Primitive ρ} {q : Primitive σ} (hpq : Primitive.Alike P kind p q) :
    C.Holds (List.Forall₂ (Primitive.Alike P leaf)) (resultOfUnit rules limit leaf name p.children)
      (resultOfUnit rules limit' leaf name q.children) := by
  refine h.unit hpq.2 ?_ name hreads
  rw [hpq.1, hrole]

/-! ## Workflows -/

theorem github_jobValue (h : UnitSimulation C limit limit' P) {props props' : Props}
    (hprops : Props.AgreeOn Github.jobFields props props') {steps : List (Primitive ρ)}
    {steps' : List (Primitive σ)}
    (hsteps : List.Forall₂ (Primitive.Alike P .githubStep) steps steps') :
    Github.jobValue props steps = Github.jobValue props' steps' := by
  have hempty : steps.isEmpty = steps'.isEmpty := by
    cases hsteps <;> rfl
  have hvalues : steps.map Github.stepValue = steps'.map Github.stepValue :=
    h.map_select (by decide) hsteps
  rw [Github.jobValue, Github.jobValue, hempty, hvalues, hprops.select, hprops.sets (by decide)]

theorem github_compileJob (h : UnitSimulation C limit limit' P) (id : String) {p : Primitive ρ}
    {q : Primitive σ} (hpq : Primitive.Alike P .githubJob p q) :
    C.Holds Eq (Github.compileJob limit id p).result (Github.compileJob limit' id q).result := by
  rw [Github.result_compileJob, Github.result_compileJob]
  refine C.bind (h.unit_alike rfl (by decide) _ hpq) ?_
  intro steps steps' hsteps
  have hagree := (h.agree_of_alike hpq).mono (List.subset_cons_self _ _)
  rw [h.github_jobValue hagree hsteps]
  exact C.of_eq _

theorem github_resultOfJob (h : UnitSimulation C limit limit' P) (position : Nat) (compiled : Mapping)
    {p : Primitive ρ} {q : Primitive σ} (hpq : Primitive.Alike P .githubJob p q) :
    C.Holds Eq (Github.resultOfJob limit position compiled p)
      (Github.resultOfJob limit' position compiled q) := by
  have hid := (h.agree_of_alike hpq).jobId (by decide) position
  rw [Github.resultOfJob, Github.resultOfJob, hid]
  -- The entries so far are equal and so is the id, hence both are duplicates or neither is.
  refine C.bind_eq (C.of_eq _) ?_
  intro id
  split
  · exact C.error _
  · exact C.bind_eq (h.github_compileJob id hpq) fun value => C.of_eq _

theorem github_compileJobs (h : UnitSimulation C limit limit' P) (position : Nat) (compiled : Mapping)
    {jobs : List (Primitive ρ)} {jobs' : List (Primitive σ)}
    (hjobs : List.Forall₂ (Primitive.Alike P .githubJob) jobs jobs') :
    C.Holds Eq (Github.compileJobs limit position compiled jobs).result
      (Github.compileJobs limit' position compiled jobs').result := by
  induction hjobs generalizing position compiled with
  | nil => exact C.of_eq _
  | @cons p q jobs jobs' hpq _ ih =>
    rw [Github.result_compileJobs_cons, Github.result_compileJobs_cons]
    refine C.bind_eq (h.github_resultOfJob position compiled hpq) ?_
    intro entry
    exact ih (position + 1) _

theorem github_compile (h : UnitSimulation C limit limit' P) {p : Primitive ρ} {q : Primitive σ}
    (hpq : Primitive.Alike P .githubWorkflow p q) :
    C.Holds Eq (Github.compile limit p).result (Github.compile limit' q).result := by
  rw [Github.result_compile, Github.result_compile]
  refine C.bind (h.expand_alike (by decide) hpq) ?_
  intro nodes nodes' hnodes
  have hjobs := h.forall₂_ofKind .githubJob hnodes
  have hagree : Props.AgreeOn Github.workflowFields p.props q.props := h.agree_of_alike hpq
  simp only [Github.resultOfNodes, forall₂_eq_nil_iff hjobs, hagree.select]
  split
  · exact C.of_eq _
  · exact C.bind_eq (h.github_compileJobs 1 [] hjobs) fun compiled => C.of_eq _

/-! ## Pipelines -/

theorem azure_compileSteps (h : UnitSimulation C limit limit' P) (unit : String) {nodes : List (Node ρ)}
    {nodes' : List (Node σ)} (hnodes : List.Forall₂ (Node.Matches P) nodes nodes') :
    C.Holds Eq (Azure.compileSteps unit (nodes.filter (·.isKind .azureStep))).result
      (Azure.compileSteps unit (nodes'.filter (·.isKind .azureStep))).result := by
  rw [Azure.result_compileSteps, Azure.result_compileSteps]
  have hsteps := h.forall₂_ofKind .azureStep hnodes
  refine C.bind (h.enabledFrom C (by decide) unit 1 hsteps) ?_
  intro kept kept' hkept
  have hvalues : kept.map Azure.stepValue = kept'.map Azure.stepValue :=
    h.map_select (by decide) hkept
  rw [hvalues]
  exact C.of_eq _

theorem azure_compileJob (h : UnitSimulation C limit limit' P) (unit : String) {p : Primitive ρ}
    {q : Primitive σ} (hpq : Primitive.Alike P .azureJob p q) :
    C.Holds Eq (Azure.compileJob limit unit p).result (Azure.compileJob limit' unit q).result := by
  rw [Azure.result_compileJob, Azure.result_compileJob]
  refine C.bind (h.unit_alike rfl (by decide) _ hpq) ?_
  intro steps steps' hsteps
  have hagree : Props.AgreeOn Azure.jobFields p.props q.props := h.agree_of_alike hpq
  have hvalues : steps.map Azure.stepValue = steps'.map Azure.stepValue :=
    h.map_select (by decide) hsteps
  rw [hvalues, hagree.select]
  exact C.of_eq _

theorem azure_compileJobs (h : UnitSimulation C limit limit' P) (scope : Option String) (position : Nat)
    {jobs : List (Primitive ρ)} {jobs' : List (Primitive σ)}
    (hjobs : List.Forall₂ (Primitive.Alike P .azureJob) jobs jobs') :
    C.Holds Eq (Azure.compileJobs limit scope position jobs).result
      (Azure.compileJobs limit' scope position jobs').result := by
  induction hjobs generalizing position with
  | nil => exact C.of_eq _
  | @cons p q jobs jobs' hpq _ ih =>
    have hunit : Azure.jobUnit scope position p.props = Azure.jobUnit scope position q.props := by
      have hagree := (h.agree_of_alike hpq).mono
        (by decide : ["job", "displayName"] ⊆ Kind.reads .azureJob)
      simp only [Azure.jobUnit, hagree.label]
    rw [Azure.result_compileJobs_cons, Azure.result_compileJobs_cons, hunit]
    refine C.bind_eq (h.azure_compileJob _ hpq) ?_
    intro value
    exact C.bind_eq (ih (position + 1)) fun values => C.of_eq _

theorem azure_compileStage (h : UnitSimulation C limit limit' P) (position : Nat) {p : Primitive ρ}
    {q : Primitive σ} (hpq : Primitive.Alike P .azureStage p q) :
    C.Holds Eq (Azure.compileStage limit position p).result
      (Azure.compileStage limit' position q).result := by
  have hagree : Props.AgreeOn Azure.stageFields p.props q.props := h.agree_of_alike hpq
  have hunit : Azure.stageUnit position p.props = Azure.stageUnit position q.props := by
    have hlabels := hagree.mono (by decide : ["stage", "displayName"] ⊆ Azure.stageFields)
    rw [Azure.stageUnit, Azure.stageUnit, hlabels.label]
  rw [Azure.result_compileStage, Azure.result_compileStage, hunit, hagree.select]
  refine C.bind (h.expand_alike (by decide) hpq) ?_
  intro nodes nodes' hnodes
  exact C.bind_eq (h.azure_compileJobs _ 1 (h.forall₂_ofKind .azureJob hnodes)) fun values => C.of_eq _

theorem azure_compileStages (h : UnitSimulation C limit limit' P) (position : Nat)
    {stages : List (Primitive ρ)} {stages' : List (Primitive σ)}
    (hstages : List.Forall₂ (Primitive.Alike P .azureStage) stages stages') :
    C.Holds Eq (Azure.compileStages limit position stages).result
      (Azure.compileStages limit' position stages').result := by
  induction hstages generalizing position with
  | nil => exact C.of_eq _
  | @cons p q stages stages' hpq _ ih =>
    rw [Azure.result_compileStages_cons, Azure.result_compileStages_cons]
    refine C.bind_eq (h.azure_compileStage position hpq) ?_
    intro value
    exact C.bind_eq (ih (position + 1)) fun values => C.of_eq _

theorem azure_levelOfNodes (h : UnitSimulation C limit limit' P) {nodes : List (Node ρ)}
    {nodes' : List (Node σ)} (hnodes : List.Forall₂ (Node.Matches P) nodes nodes') :
    C.Holds Eq (Azure.levelOfNodes limit nodes) (Azure.levelOfNodes limit' nodes') := by
  have hstages := h.forall₂_ofKind .azureStage hnodes
  have hjobs := h.forall₂_ofKind .azureJob hnodes
  have hsteps := h.forall₂_ofKind .azureStep hnodes
  -- Which level is written depends on which kinds occur, and the same ones do on both sides.
  simp only [Azure.levelOfNodes, ne_eq, forall₂_eq_nil_iff hstages, forall₂_eq_nil_iff hjobs,
    forall₂_eq_nil_iff hsteps]
  split
  · exact C.bind_eq (h.azure_compileStages 1 hstages) fun values => C.of_eq _
  · split
    · exact C.bind_eq (h.azure_compileJobs none 1 hjobs) fun values => C.of_eq _
    · split
      · exact C.bind_eq (h.azure_compileSteps "pipeline" hnodes) fun value => C.of_eq _
      · exact C.of_eq _

theorem azure_compile (h : UnitSimulation C limit limit' P) {p : Primitive ρ} {q : Primitive σ}
    (hpq : Primitive.Alike P .azurePipeline p q) :
    C.Holds Eq (Azure.compile limit p).result (Azure.compile limit' q).result := by
  have hagree : Props.AgreeOn Azure.pipelineFields p.props q.props := h.agree_of_alike hpq
  rw [Azure.result_compile, Azure.result_compile, hagree.select]
  refine C.bind (h.expand_alike (by decide) hpq) ?_
  intro nodes nodes' hnodes
  exact C.bind_eq (h.azure_levelOfNodes hnodes) fun level => C.of_eq _

end UnitSimulation

/-! ## Rendering -/

section Rendering

variable [ExpansionRule ρ] [ExpansionRule σ] {C : Comparison} {limit limit' : Nat}

theorem result_render_of_forRoot {registry : Registry ρ} {compiler : Compiler ρ} {root : Node ρ}
    {p : Primitive ρ} (hcompiler : registry.forRoot? root = some compiler)
    (hroot : root.primitive? = some p) (limit : Nat) :
    (registry.render limit root).result = (do
      match ← (compiler.compile limit p).result with
      | none => .ok .empty
      | some document =>
        let text ← Yaml.print (compiler.renames.rename document)
        .ok (.rendered compiler.id compiler.extension text)) := by
  simp only [Registry.render, Compiler.render, hcompiler, hroot, Run.bind_eq, Run.result_andThen,
    Run.result_report, Run.ok_bind]
  cases (compiler.compile limit p).result with
  | error error => rfl
  | ok document =>
    cases document with
    | none => rfl
    | some document => cases h : Yaml.print (compiler.renames.rename document) <;> simp [h]

theorem result_render_of_no_renderer {registry : Registry ρ} {root : Node ρ}
    (hnone : registry.forRoot? root = none) (limit : Nat) :
    (registry.render limit root).result = .ok (.noRenderer root.kindName) := by
  rw [Registry.render, hnone]
  rfl

theorem Comparison.render {registry : Registry ρ} {registry' : Registry σ} {compiler : Compiler ρ}
    {compiler' : Compiler σ} {m : Node ρ} {n : Node σ} {p : Primitive ρ} {q : Primitive σ}
    (hm : registry.forRoot? m = some compiler) (hn : registry'.forRoot? n = some compiler')
    (hp : m.primitive? = some p) (hq : n.primitive? = some q) (hid : compiler.id = compiler'.id)
    (hextension : compiler.extension = compiler'.extension)
    (hrenames : compiler.renames = compiler'.renames)
    (hcompile : C.Holds Eq (compiler.compile limit p).result (compiler'.compile limit' q).result) :
    C.Holds Eq (registry.render limit m).result (registry'.render limit' n).result := by
  rw [result_render_of_forRoot hm hp, result_render_of_forRoot hn hq, hid, hextension, hrenames]
  exact C.bind_eq hcompile fun document => C.of_eq _

/-- A built-in platform compiles related roots of its kind alike. -/
theorem UnitSimulation.compile {P : Primitive ρ → Primitive ρ → Prop}
    (h : UnitSimulation C limit limit' P)
    {compiler : Compiler ρ} (hcompiler : compiler ∈ Registry.builtin) {p q : Primitive ρ}
    (hpq : Primitive.Alike P compiler.rootKind p q) :
    C.Holds Eq (compiler.compile limit p).result (compiler.compile limit' q).result := by
  simp only [Registry.builtin, List.mem_cons, List.not_mem_nil, or_false] at hcompiler
  rcases hcompiler with rfl | rfl
  · exact h.github_compile hpq
  · exact h.azure_compile hpq

theorem Simulation.compile {P : Primitive ρ → Primitive ρ → Prop} (h : Simulation C limit limit' P)
    {compiler : Compiler ρ} (hcompiler : compiler ∈ Registry.builtin) {p q : Primitive ρ}
    (hpq : Primitive.Alike P compiler.rootKind p q) :
    C.Holds Eq (compiler.compile limit p).result (compiler.compile limit' q).result :=
  h.byUnits.compile hcompiler hpq

/-- Related roots are rendered alike by a registry of built-in platforms. -/
theorem Simulation.render {P : Primitive ρ → Primitive ρ → Prop} (h : Simulation C limit limit' P)
    {registry : Registry ρ} (hregistry : registry ⊆ Registry.builtin) {kind : Kind}
    {props props' : Props} {children children' : List (Node ρ)}
    (hpq : P ⟨kind, props, children⟩ ⟨kind, props', children'⟩) :
    C.Holds Eq (registry.render limit (.primitive kind props children)).result
      (registry.render limit' (.primitive kind props' children')).result := by
  -- The platform is chosen by the kind of the root alone, so it is the same one for both.
  cases hfind : registry.find? (·.rootKind == kind) with
  | none =>
    have hm : registry.forRoot? (.primitive kind props children) = none := hfind
    have hn : registry.forRoot? (.primitive kind props' children') = none := hfind
    rw [result_render_of_no_renderer hm, result_render_of_no_renderer hn]
    exact C.ok rfl
  | some compiler =>
    have hmem : compiler ∈ Registry.builtin := hregistry (List.mem_of_find?_eq_some hfind)
    have hkind : compiler.rootKind = kind := by simpa using List.find?_some hfind
    subst hkind
    exact C.render hfind hfind rfl rfl rfl rfl rfl (h.compile hmem ⟨rfl, hpq⟩)

end Rendering

end PipelineTree
