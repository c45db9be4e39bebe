import PipelineTree.Authoring.Tree
import PipelineTree.Proofs.Expansion.Lockstep
import PipelineTree.Proofs.Platform.Simulation

/-!
# Depth limit — answers that do not depend on it

The depth limit only ever stops an expansion; nothing else looks at it.  With more levels left, a walk
does what it did with fewer, as long as it does not run into the limit (`lockstep_levels`).  So an outcome
that is no failure at the limit is the outcome under every higher limit (`Registry.render_raised`).
-/

namespace PipelineTree

/-- The error of an expansion that went too deep. -/
def Error.TooDeep (error : Error) : Prop := ∃ limit rule, error = .depthExceeded limit rule

/-- A result that is the failure at a depth limit. -/
def FailsAtDepth {α : Type} (result : Except Error α) : Prop :=
  ∃ error, result = .error error ∧ error.TooDeep

theorem not_failsAtDepth_of_validation {α : Type} {entity message : String} :
    ¬FailsAtDepth (.error (.validation entity message) : Except Error α) := by
  rintro ⟨error, herror, limit, rule, hdeep⟩
  cases herror
  cases hdeep

/-- What is compared unless the first computation goes too deep. -/
abbrev Comparison.unlessTooDeep : Comparison := .unless Error.TooDeep

/-- Where the first result is no failure at a depth limit, results that agree are equal. -/
theorem AgreeUnless.eq_of_not_failsAtDepth {α : Type} {x y : Except Error α}
    (h : AgreeUnless Error.TooDeep Eq x y) (hwithin : ¬FailsAtDepth x) : y = x := by
  refine h.eq ?_
  intro error herror hdeep
  exact hwithin ⟨error, herror, hdeep⟩

variable {ρ : Type} [ExpansionRule ρ]

/-! ## Expansion with more levels left -/

variable {P : Primitive ρ → Primitive ρ → Prop}

/-- A node is visited in lockstep with itself where at least as many levels are left. -/
theorem lockstep_levels (hP : ∀ p, P p p) (limit limit' : Nat) :
    Lockstep Comparison.unlessTooDeep limit limit' (Node.Matches P) fun (p q : Pending ρ) =>
      p.node = q.node ∧ limit + 1 - p.depth ≤ limit' + 1 - q.depth where
  deep := by
    rintro ⟨node, depth, origin⟩ ⟨_, depth', origin'⟩ ⟨rfl, -⟩ hdeep
    rw [Pending.result_walk_deep hdeep]
    exact AgreeUnless.of_excused ⟨_, _, rfl⟩ _
  visit := by
    rintro ⟨node, depth, origin⟩ ⟨_, depth', origin'⟩ ⟨rfl, hlevels⟩ (hlevel : depth ≤ limit)
    simp only at hlevels
    -- One level is left on the first side, so one is left on the other, and one less below.
    have hlevel' : depth' ≤ limit' := by omega
    have hbelow : ∀ (name name' : Option String) (nodes : List (Node ρ)),
        List.Forall₂ (fun p q : Pending ρ =>
            (p.node = q.node ∧ limit + 1 - p.depth ≤ limit' + 1 - q.depth) ∧ p.depth = depth + 1)
          (nodes.map (⟨·, depth + 1, name⟩)) (nodes.map (⟨·, depth' + 1, name'⟩)) := by
      intro name name' nodes
      refine Pending.forall₂_map (List.forall₂_eq_eq_eq ▸ rfl : List.Forall₂ Eq nodes nodes) ?_
      rintro m _ rfl
      exact ⟨⟨rfl, by simp only; omega⟩, rfl⟩
    cases node with
    | primitive kind props children =>
      rw [Pending.result_visit_primitive hlevel, Pending.result_visit_primitive hlevel']
      exact Comparison.ok _ ⟨.cons (.refl hP _) .nil, .nil⟩
    | group children =>
      rw [Pending.result_visit_group hlevel, Pending.result_visit_group hlevel']
      exact Comparison.ok _ ⟨.nil, hbelow origin origin' children⟩
    | custom rule props =>
      rw [Pending.result_visit_custom hlevel, Pending.result_visit_custom hlevel']
      cases ExpansionRule.invoke rule props with
      | error cause => exact Comparison.error _ _
      | ok slot => exact Comparison.ok _ ⟨.nil, hbelow _ _ slot.nodes⟩

/-- The same nodes expand alike under a higher limit. -/
theorem expandAll_levels (hP : ∀ p, P p p) {limit limit' : Nat} (hle : limit ≤ limit')
    (nodes : List (Node ρ)) :
    Comparison.unlessTooDeep.Holds (List.Forall₂ (Node.Matches P)) (expandAll limit nodes).result
      (expandAll limit' nodes).result := by
  refine (lockstep_levels hP limit limit').expandAll ?_
  rw [List.forall₂_same]
  intro node _
  exact ⟨rfl, by simp only; omega⟩

/-! ## Compiling and rendering under a higher limit -/

/-- Every primitive is compiled alike under a higher limit, unless the lower one is met. -/
theorem simulation_levels {limit limit' : Nat} (hle : limit ≤ limit') :
    Simulation Comparison.unlessTooDeep limit limit' (@Eq (Primitive ρ)) where
  kind := by
    rintro p _ rfl
    rfl
  agree := by
    rintro p _ rfl name -
    rfl
  expand := by
    rintro p _ rfl
    exact expandAll_levels (fun _ => rfl) hle p.children

/--
Raising the depth limit never changes an answer that does not depend on it: what a registry of built-in
platforms renders without meeting the limit, or the error it gives, stays the same under higher limits.
-/
theorem Registry.render_raised {registry : Registry ρ} (hregistry : registry ⊆ Registry.builtin)
    {limit limit' : Nat} (hle : limit ≤ limit') {root : Node ρ}
    (hwithin : ¬FailsAtDepth (registry.render limit root).result) :
    (registry.render limit' root).result = (registry.render limit root).result := by
  cases root with
  | primitive kind props children =>
    have hsame : (⟨kind, props, children⟩ : Primitive ρ) = ⟨kind, props, children⟩ := rfl
    have hagree := (simulation_levels hle).render hregistry hsame
    exact AgreeUnless.eq_of_not_failsAtDepth hagree hwithin
  | group children => rfl
  | custom rule props => rfl

/--
A workflow with a step that does nothing in its first job, and a step in its second job that lies deeper.
-/
def idleWorkflow : Node TemplateUse :=
  .primitive .githubWorkflow [("name", .text "CI")]
    [ .group
        [.primitive .githubJob [("id", .text "lint")]
          [.group [.primitive .githubStep [("name", .text "Clippy")] []]]],
      .primitive .githubJob [("id", .text "test")]
        [.group [.group [.primitive .githubStep [("run", .text "cargo test")] []]]] ]

/-- The idle step is met before the one that is too deep. -/
theorem render_idleWorkflow :
    (Registry.render [Azure.compiler, Github.compiler] 1 idleWorkflow).result =
      .error (.validation "step 'Clippy' in job 'lint'" "must set either 'uses' or 'run'") := by
  with_unfolding_all rfl

theorem Registry.render_raised_idleWorkflow :
    ([Azure.compiler, Github.compiler] : Registry TemplateUse) ⊆ Registry.builtin ∧ 1 ≤ 40 ∧
      ¬FailsAtDepth (Registry.render [Azure.compiler, Github.compiler] 1 idleWorkflow).result ∧
      (Registry.render [Azure.compiler, Github.compiler] 40 idleWorkflow).result =
        (Registry.render [Azure.compiler, Github.compiler] 1 idleWorkflow).result := by
  have hregistry : ([Azure.compiler, Github.compiler] : Registry TemplateUse) ⊆ Registry.builtin := by
    simp [Registry.builtin]
  have hwithin :
      ¬FailsAtDepth (Registry.render [Azure.compiler, Github.compiler] 1 idleWorkflow).result := by
    rw [render_idleWorkflow]
    exact not_failsAtDepth_of_validation
  exact ⟨hregistry, by decide, hwithin, Registry.render_raised hregistry (by decide) hwithin⟩

end PipelineTree
