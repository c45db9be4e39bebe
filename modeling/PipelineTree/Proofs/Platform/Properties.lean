import Mathlib.Data.List.Perm.Basic
import PipelineTree.Authoring.Tree
import PipelineTree.Proofs.Expansion.Lockstep
import PipelineTree.Proofs.Platform.Simulation
import PipelineTree.Proofs.Value.Entries

/-!
# Properties — what a document depends on

Of the properties of a node, a platform looks at those in the list of its kind (`Kind.reads`), and at
those only as far as they are not null.  `compile_indifferent` says that trees of one shape which agree in
these are compiled to the same result, document or error: nulls, the order of properties, and properties
that are not listed make no difference.
-/

namespace PipelineTree

/-! ## What listed properties show -/

namespace Props

/-- The entries under listed names whose values are not null. -/
def shown (names : List String) (props : Props) : Props :=
  props.filter fun entry => names.contains entry.1 && !entry.2.isNull

/-- No name is used twice. -/
def Distinct (props : Props) : Prop := (props.map Prod.fst).Nodup

instance : DecidablePred Distinct := fun props =>
  inferInstanceAs (Decidable (props.map Prod.fst).Nodup)

variable {names : List String} {props props' : Props}

theorem mem_shown_iff {entry : String × Value} (hdistinct : props.Distinct) :
    entry ∈ props.shown names ↔ entry.1 ∈ names ∧ props.value? entry.1 = some entry.2 := by
  rcases entry with ⟨name, value⟩
  have hlookup : (name, value) ∈ props ↔ props.lookup name = some value :=
    ⟨Entries.lookup_of_mem hdistinct, Entries.mem_of_lookup⟩
  rw [shown, List.mem_filter, hlookup, value?_eq_some_iff]
  simp only [List.contains_iff_mem, Bool.and_eq_true, Bool.not_eq_true']
  constructor
  · rintro ⟨hvalue, hname, hnull⟩
    exact ⟨hname, hvalue, hnull⟩
  · rintro ⟨hname, hvalue, hnull⟩
    exact ⟨hvalue, hname, hnull⟩

/-- Two bags that show the same entries, in whatever order, have the same values under these names. -/
theorem agreeOn_of_shown_perm (hdistinct : props.Distinct) (hdistinct' : props'.Distinct)
    (hshown : (props.shown names).Perm (props'.shown names)) : AgreeOn names props props' := by
  intro name hname
  ext value
  calc
    props.value? name = some value ↔ (name, value) ∈ props.shown names := by
      simp [mem_shown_iff hdistinct, hname]
    _ ↔ (name, value) ∈ props'.shown names := hshown.mem_iff
    _ ↔ props'.value? name = some value := by
      simp [mem_shown_iff hdistinct', hname]

end Props

/-! ## Trees of one shape -/

/--
Trees of one shape: the same kinds, groups and custom nodes at the same places.  The properties of
primitives at the same place are related by `R`.
-/
inductive Node.SameShape {ρ : Type} (R : Kind → Props → Props → Prop) : Node ρ → Node ρ → Prop where
  | primitive {kind : Kind} {props props' : Props} {children children' : List (Node ρ)} :
      R kind props props' → List.Forall₂ (Node.SameShape R) children children' →
        Node.SameShape R (.primitive kind props children) (.primitive kind props' children')
  | group {children children' : List (Node ρ)} :
      List.Forall₂ (Node.SameShape R) children children' →
        Node.SameShape R (.group children) (.group children')
  | custom (rule : ρ) (props : Props) : Node.SameShape R (.custom rule props) (.custom rule props)

/-- Primitives of one shape. -/
def Primitive.SameShape {ρ : Type} (p : Primitive ρ) (R : Kind → Props → Props → Prop)
    (q : Primitive ρ) : Prop :=
  p.kind = q.kind ∧ R p.kind p.props q.props ∧
    List.Forall₂ (Node.SameShape R) p.children q.children

/-- Properties that have the same values wherever a platform reads them. -/
def Props.ReadAlike (kind : Kind) (props props' : Props) : Prop :=
  props.AgreeOn kind.reads props'

/-- Properties that have the same entries wherever a platform reads them, in whatever order. -/
def Props.ShownAlike (kind : Kind) (props props' : Props) : Prop :=
  props.Distinct ∧ props'.Distinct ∧ (props.shown kind.reads).Perm (props'.shown kind.reads)

theorem Props.ShownAlike.readAlike {kind : Kind} {props props' : Props}
    (h : props.ShownAlike kind props') : props.ReadAlike kind props' := by
  rcases h with ⟨hdistinct, hdistinct', hshown⟩
  exact Props.agreeOn_of_shown_perm hdistinct hdistinct' hshown

/-- The comparison that excuses nothing. -/
abbrev Comparison.exact : Comparison := .unless fun _ => False

section Shapes

variable {ρ : Type} {R S : Kind → Props → Props → Prop}

namespace Node.SameShape

mutual

theorem refl (hR : ∀ kind props, R kind props props) :
    ∀ node : Node ρ, Node.SameShape R node node
  | .primitive kind props children => .primitive (hR kind props) (reflAll hR children)
  | .group children => .group (reflAll hR children)
  | .custom rule props => .custom rule props

theorem reflAll (hR : ∀ kind props, R kind props props) :
    ∀ nodes : List (Node ρ), List.Forall₂ (Node.SameShape R) nodes nodes
  | [] => .nil
  | node :: nodes => .cons (refl hR node) (reflAll hR nodes)

end

mutual

theorem mono (hRS : ∀ {kind props props'}, R kind props props' → S kind props props') :
    ∀ {m n : Node ρ}, Node.SameShape R m n → Node.SameShape S m n
  | .primitive _ _ _, _, .primitive hprops hchildren => .primitive (hRS hprops) (monoAll hRS hchildren)
  | .group _, _, .group hchildren => .group (monoAll hRS hchildren)
  | .custom _ _, _, .custom rule props => .custom rule props

theorem monoAll (hRS : ∀ {kind props props'}, R kind props props' → S kind props props') :
    ∀ {nodes nodes' : List (Node ρ)}, List.Forall₂ (Node.SameShape R) nodes nodes' →
      List.Forall₂ (Node.SameShape S) nodes nodes'
  | [], _, .nil => .nil
  | _ :: _, _, .cons hnode hnodes => .cons (mono hRS hnode) (monoAll hRS hnodes)

end

end Node.SameShape

theorem Primitive.SameShape.mono (hRS : ∀ {kind props props'}, R kind props props' → S kind props props')
    {p q : Primitive ρ} (h : p.SameShape R q) : p.SameShape S q :=
  ⟨h.1, hRS h.2.1, Node.SameShape.monoAll hRS h.2.2⟩

end Shapes

/-! ## Compiling trees of one shape -/

section Compiling

variable {ρ : Type} [ExpansionRule ρ]

theorem Node.SameShape.kindName {R : Kind → Props → Props → Prop} {m n : Node ρ}
    (h : Node.SameShape R m n) : m.kindName = n.kindName := by
  cases h <;> rfl

theorem Props.ReadAlike.refl (kind : Kind) (props : Props) : props.ReadAlike kind props :=
  fun _ _ => rfl

/-- Trees of one shape are visited in lockstep, whatever their properties are. -/
theorem lockstep_sameShape {R : Kind → Props → Props → Prop} (hR : ∀ kind props, R kind props props)
    (limit : Nat) :
    Lockstep Comparison.exact limit limit (Node.Matches fun p q : Primitive ρ => p.SameShape R q)
      fun p q => Node.SameShape R p.node q.node ∧ p.depth = q.depth ∧ p.origin = q.origin where
  deep := by
    rintro ⟨m, depth, origin⟩ ⟨n, _, _⟩ ⟨hshape, rfl, rfl⟩ hdeep
    -- Where the limit is met, nodes of one shape are named alike.
    rw [Pending.result_walk_deep hdeep, Pending.result_walk_deep hdeep, hshape.kindName]
    exact Comparison.error _ _
  visit := by
    rintro ⟨m, depth, origin⟩ ⟨n, _, _⟩ ⟨hshape, rfl, rfl⟩ (hlevel : depth ≤ limit)
    have hbelow : ∀ {name : Option String} {nodes nodes' : List (Node ρ)},
        List.Forall₂ (Node.SameShape R) nodes nodes' →
        List.Forall₂ (fun p q : Pending ρ =>
            (Node.SameShape R p.node q.node ∧ p.depth = q.depth ∧ p.origin = q.origin) ∧
              p.depth = depth + 1)
          (nodes.map (⟨·, depth + 1, name⟩)) (nodes'.map (⟨·, depth + 1, name⟩)) := by
      intro name nodes nodes' hnodes
      exact Pending.forall₂_map hnodes fun _ _ hmn => ⟨⟨hmn, rfl, rfl⟩, rfl⟩
    cases hshape with
    | primitive hprops hchildren =>
      rw [Pending.result_visit_primitive hlevel, Pending.result_visit_primitive hlevel]
      exact Comparison.ok _ ⟨.cons (.some ⟨rfl, hprops, hchildren⟩) .nil, .nil⟩
    | group hchildren =>
      rw [Pending.result_visit_group hlevel, Pending.result_visit_group hlevel]
      exact Comparison.ok _ ⟨.nil, hbelow hchildren⟩
    | custom rule props =>
      rw [Pending.result_visit_custom hlevel]
      cases ExpansionRule.invoke rule props with
      | error cause => exact Comparison.error _ _
      | ok slot => exact Comparison.ok _ ⟨.nil, hbelow (Node.SameShape.reflAll hR slot.nodes)⟩

theorem simulation_readAlike (limit : Nat) :
    Simulation Comparison.exact limit limit fun p q : Primitive ρ =>
      p.SameShape Props.ReadAlike q where
  kind h := h.1
  agree h := h.2.1
  expand := by
    rintro p q ⟨-, -, hchildren⟩
    exact (lockstep_sameShape Props.ReadAlike.refl limit).expandAll
      (hchildren.imp fun m n hmn => ⟨hmn, rfl, rfl⟩)

/-- A platform compiles trees of one shape alike if their properties are read alike. -/
theorem result_compile_readAlike {compiler : Compiler ρ} (hcompiler : compiler ∈ Registry.builtin)
    (limit : Nat) {p q : Primitive ρ} (hkind : p.kind = compiler.rootKind)
    (hshape : p.SameShape Props.ReadAlike q) :
    (compiler.compile limit p).result = (compiler.compile limit q).result := by
  have hagree := (simulation_readAlike limit).compile hcompiler ⟨hkind, hshape⟩
  exact (AgreeUnless.eq hagree fun _ _ hnever => hnever).symm

/--
What a platform compiles depends on nothing but the shape of the tree and the values of the properties in
the lists of its kinds.  So neither nulls nor the order of properties nor any other properties make a
difference, to the document or to the error.
-/
theorem compile_indifferent {compiler : Compiler ρ} (hcompiler : compiler ∈ Registry.builtin)
    (limit : Nat) {p q : Primitive ρ} (hkind : p.kind = compiler.rootKind) :
    (p.SameShape Props.ReadAlike q →
      (compiler.compile limit p).result = (compiler.compile limit q).result) ∧
    (p.SameShape Props.ShownAlike q →
      (compiler.compile limit p).result = (compiler.compile limit q).result) := by
  constructor
  · exact result_compile_readAlike hcompiler limit hkind
  · intro hshape
    exact result_compile_readAlike hcompiler limit hkind (hshape.mono Props.ShownAlike.readAlike)

end Compiling

/-- A workflow with a job that runs a command. -/
def terseWorkflow : Primitive TemplateUse where
  kind := .githubWorkflow
  props := [("name", .text "CI")]
  children :=
    [.primitive .githubJob [("id", .text "lint"), ("needs", .text "build")]
      [.primitive .githubStep [("run", .text "cargo clippy"), ("name", .text "Clippy")] []]]

/-- The same with properties in another order, with nulls, and with properties that no platform reads. -/
def chattyWorkflow : Primitive TemplateUse where
  kind := .githubWorkflow
  props := [("author", .text "infra"), ("name", .text "CI"), ("env", .null)]
  children :=
    [.primitive .githubJob [("needs", .text "build"), ("if", .null), ("id", .text "lint")]
      [.primitive .githubStep
        [("disabled", .null), ("name", .text "Clippy"), ("run", .text "cargo clippy")] []]]

theorem shownAlike_workflows : terseWorkflow.SameShape Props.ShownAlike chattyWorkflow := by
  have hstep : Props.ShownAlike .githubStep
      [("run", .text "cargo clippy"), ("name", .text "Clippy")]
      [("disabled", .null), ("name", .text "Clippy"), ("run", .text "cargo clippy")] :=
    ⟨by decide, by decide, .swap _ _ _⟩
  have hjob : Props.ShownAlike .githubJob
      [("id", .text "lint"), ("needs", .text "build")]
      [("needs", .text "build"), ("if", .null), ("id", .text "lint")] :=
    ⟨by decide, by decide, .swap _ _ _⟩
  have hroot : Props.ShownAlike .githubWorkflow [("name", .text "CI")]
      [("author", .text "infra"), ("name", .text "CI"), ("env", .null)] :=
    ⟨by decide, by decide, .refl _⟩
  exact ⟨rfl, hroot, .cons (.primitive hjob (.cons (.primitive hstep .nil) .nil)) .nil⟩

theorem compile_indifferent_workflows :
    Github.compiler ∈ (Registry.builtin : Registry TemplateUse) ∧
      terseWorkflow.kind = (Github.compiler : Compiler TemplateUse).rootKind ∧
      terseWorkflow.SameShape Props.ReadAlike chattyWorkflow ∧
      terseWorkflow.SameShape Props.ShownAlike chattyWorkflow ∧
      (Github.compiler.compile 5 terseWorkflow).result =
        (Github.compiler.compile 5 chattyWorkflow).result := by
  have hcompiler : Github.compiler ∈ (Registry.builtin : Registry TemplateUse) := by
    simp [Registry.builtin]
  have hkind : terseWorkflow.kind = (Github.compiler : Compiler TemplateUse).rootKind := rfl
  have hread : terseWorkflow.SameShape Props.ReadAlike chattyWorkflow :=
    shownAlike_workflows.mono Props.ShownAlike.readAlike
  have hcompile := (compile_indifferent hcompiler 5 hkind).1 hread
  exact ⟨hcompiler, hkind, hread, shownAlike_workflows, hcompile⟩

end PipelineTree
