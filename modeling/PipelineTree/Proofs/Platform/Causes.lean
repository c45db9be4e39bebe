import PipelineTree.Proofs.Expansion.Arising
import PipelineTree.Proofs.Platform.Failure
import PipelineTree.Proofs.Platform.Simulation

/-!
# Causes — what rendering can fail for

All that a compiler reaches comes up in its root (`Github.Reaches.within`, `Azure.Reaches.within`).  So rendering a
root fails for four causes: a rule of a custom node that arises from the root, the limit, a rule of the platform, or
a document that has no written form (`Registry.fails_of_render`).
-/

namespace PipelineTree

variable {ρ : Type} [ExpansionRule ρ]

/-- The errors that rendering a root can end with. -/
inductive Node.Fails (root : Node ρ) : Error → Prop where
  | rule {rule : ρ} {props : Props} {cause : RuleError} :
      root.Arises (.custom rule props) → ExpansionRule.invoke rule props = .error cause →
        Fails root (.expansionFailed (ExpansionRule.name rule) cause)
  | deep (limit : Nat) (rule : String) : Fails root (.depthExceeded limit rule)
  | violation (entity message : String) : Fails root (.validation entity message)
  | unwritten (fault : ReadFault) : Fails root (.yaml fault)

/-- What a compiler reaches comes up in a root, or is the violation of a rule of the platform. -/
def Checkpoint.Within (root : Node ρ) : Checkpoint ρ → Prop
  | .expansion children => ∀ child ∈ children, root.Arises child
  | .violation error => ∃ entity message, error = .validation entity message

variable {root : Node ρ} {limit : Nat} {checkpoint : Checkpoint ρ}

/-! ## What is reached -/

theorem arises_children {nodes : List (Node ρ)} (h : ∀ node ∈ nodes, root.Arises node) {kind : Kind}
    {part : Primitive ρ} (hpart : part ∈ Primitive.ofKind kind nodes) :
    ∀ child ∈ part.children, root.Arises child := by
  rcases List.mem_filterMap.1 (List.mem_filter.1 hpart).1 with ⟨node, hnode, hprimitive⟩
  cases node with
  | primitive kind props children =>
    cases hprimitive
    exact fun child hchild => .child (h _ hnode) hchild
  | group => cases hprimitive
  | custom => cases hprimitive

theorem Expanding.within {children : List (Node ρ)} {Inside : List (Node ρ) → Checkpoint ρ → Prop}
    (h : Expanding limit children Inside checkpoint) (hchildren : ∀ child ∈ children, root.Arises child)
    (hinside : ∀ nodes, (∀ node ∈ nodes, root.Arises node) → Inside nodes checkpoint →
      checkpoint.Within root) : checkpoint.Within root := by
  cases h with
  | children => exact hchildren
  | inside hexpand hreached => exact hinside _ (arises_of_yielded hchildren hexpand) hreached

theorem StepRules.StepsReach.within {rules : StepRules} {unit : String} {seen steps : List (Primitive ρ)}
    (h : rules.StepsReach unit seen steps checkpoint) : checkpoint.Within root := by
  rcases Reached.exists_mem h with ⟨_, step, -, ⟨-, hviolation⟩⟩
  cases hviolation with
  | both => exact ⟨_, _, rfl⟩
  | neither => exact ⟨_, _, rfl⟩

theorem UnitReaches.within {rules : StepRules} {leaf : Kind} {unit : String} {children : List (Node ρ)}
    (h : UnitReaches rules limit leaf unit children checkpoint)
    (hchildren : ∀ child ∈ children, root.Arises child) : checkpoint.Within root :=
  Expanding.within h hchildren fun _ _ hsteps => StepRules.StepsReach.within hsteps

theorem Github.Reaches.within {workflow : Primitive ρ} (h : Github.Reaches limit workflow checkpoint)
    (hchildren : ∀ child ∈ workflow.children, root.Arises child) : checkpoint.Within root := by
  refine Expanding.within h hchildren fun nodes hnodes hjobs => ?_
  rcases Reached.exists_mem hjobs with ⟨_, job, hjob, hreached⟩
  cases hreached with
  | id => exact ⟨_, _, rfl⟩
  | duplicate => exact ⟨_, _, rfl⟩
  | unit _ _ hunit => exact hunit.within (arises_children hnodes hjob)

theorem Azure.JobsReach.within {scope : Option String} {seen : List (Primitive ρ)}
    {nodes : List (Node ρ)}
    (h : Azure.JobsReach limit scope seen (Primitive.ofKind .azureJob nodes) checkpoint)
    (hnodes : ∀ node ∈ nodes, root.Arises node) : checkpoint.Within root := by
  rcases Reached.exists_mem h with ⟨_, job, hjob, hunit⟩
  exact hunit.within (arises_children hnodes hjob)

theorem Azure.Reaches.within {pipeline : Primitive ρ} (h : Azure.Reaches limit pipeline checkpoint)
    (hchildren : ∀ child ∈ pipeline.children, root.Arises child) : checkpoint.Within root := by
  refine Expanding.within h hchildren fun nodes hnodes hlevel => ?_
  rw [Azure.LevelReaches] at hlevel
  split at hlevel
  · rcases Reached.exists_mem hlevel with ⟨_, stage, hstage, hinside⟩
    exact Expanding.within hinside (arises_children hnodes hstage) fun _ hinner hjobs => hjobs.within hinner
  · split at hlevel
    · exact hlevel.within hnodes
    · exact StepRules.StepsReach.within hlevel

/-! ## How rendering fails -/

theorem FailsAt.fails {γ : Type} {result : Except Error γ} {Reaches : Checkpoint ρ → Prop} {error : Error}
    (h : FailsAt limit result Reaches) (hwithin : ∀ checkpoint, Reaches checkpoint → checkpoint.Within root)
    (herror : result = .error error) : root.Fails error := by
  rcases (h.eq_error_iff error).1 herror with ⟨children, hreaches, hfails⟩ | hreaches
  · rcases arises_of_failed (hwithin _ hreaches) hfails with ⟨rule, rfl⟩ | ⟨_, _, _, harises, hinvoke, rfl⟩
    · exact .deep limit rule
    · exact .rule harises hinvoke
  · rcases hwithin _ hreaches with ⟨entity, message, rfl⟩
    exact .violation entity message

theorem Compiler.fails_of_compile {compiler : Compiler ρ} (hcompiler : compiler ∈ Registry.builtin)
    {kind : Kind} {props : Props} {children : List (Node ρ)} {error : Error}
    (herror : (compiler.compile limit ⟨kind, props, children⟩).result = .error error) :
    (Node.primitive kind props children).Fails error := by
  have hchildren : ∀ child ∈ children, (Node.primitive kind props children).Arises child :=
    fun child hchild => .child .root hchild
  simp only [Registry.builtin, List.mem_cons, List.not_mem_nil, or_false] at hcompiler
  rcases hcompiler with rfl | rfl
  · exact (Github.failsAt_compile limit _).fails (fun _ hreaches => hreaches.within hchildren) herror
  · exact (Azure.failsAt_compile limit _).fails (fun _ hreaches => hreaches.within hchildren) herror

theorem fails_of_print {document : Value} {error : Error} (h : Yaml.print document = .error error) :
    root.Fails error := by
  rw [Yaml.print] at h
  split at h
  · cases h
  · cases h
    exact .unwritten _

/-- A root that is not rendered has one of four causes. -/
theorem Registry.fails_of_render {registry : Registry ρ} (hregistry : registry ⊆ Registry.builtin)
    {error : Error} (h : (registry.render limit root).result = .error error) : root.Fails error := by
  cases hfound : registry.forRoot? root with
  | none =>
    -- A root of no platform is an outcome, and no error.
    rw [result_render_of_no_renderer hfound] at h
    cases h
  | some compiler =>
    cases root with
    | group => cases hfound
    | custom => cases hfound
    | primitive kind props children =>
      have hmem : compiler ∈ Registry.builtin := hregistry (List.mem_of_find?_eq_some hfound)
      rw [result_render_of_forRoot hfound rfl, Run.bind_eq_error_iff] at h
      rcases h with hcompile | ⟨_ | document, -, hprint⟩
      · exact Compiler.fails_of_compile hmem hcompile
      · cases hprint
      · rcases Run.bind_eq_error_iff.1 hprint with hprint | ⟨_, -, hnone⟩
        · exact fails_of_print hprint
        · cases hnone

end PipelineTree
