import PipelineTree.Authoring.Tree
import PipelineTree.Proofs.Platform.DepthLimit

/-!
# Grouping — groups are transparent

A group stands for its children, so siblings may be gathered into groups, and groups dissolved, wherever
children stand.  `Node.ungroup` dissolves all groups below a node; a tree and the tree without its groups
are compiled alike as long as the grouped one stays within the depth limit (`simulation_ungroup`).
Gathering siblings at some place (`SiblingPosition`) leaves the tree without groups as it is, so it
changes no outcome, unless a tree goes too deep (`Registry.render_grouped`).
-/

namespace PipelineTree

variable {ρ : Type}

/-! ## Trees without groups -/

namespace Node

mutual

/-- What a node stands for without groups: what a group holds takes its place, at every depth. -/
def ungroup : Node ρ → List (Node ρ)
  | .primitive kind props children => [.primitive kind props (ungroupAll children)]
  | .group children => ungroupAll children
  | .custom rule props => [.custom rule props]

def ungroupAll : List (Node ρ) → List (Node ρ)
  | [] => []
  | node :: nodes => ungroup node ++ ungroupAll nodes

end

theorem ungroupAll_append (front back : List (Node ρ)) :
    ungroupAll (front ++ back) = ungroupAll front ++ ungroupAll back := by
  induction front with
  | nil => rfl
  | cons node front ih => simp [ungroupAll, ih]

end Node

def Primitive.ungroup (p : Primitive ρ) : Primitive ρ :=
  ⟨p.kind, p.props, Node.ungroupAll p.children⟩

/-! ## Places for siblings -/

/-- A place for a run of siblings in a list of nodes: among them, or among the children of one of them. -/
inductive SiblingPosition (ρ : Type) where
  | here (before after : List (Node ρ))
  | inGroup (before : List (Node ρ)) (inner : SiblingPosition ρ) (after : List (Node ρ))
  | inPrimitive (before : List (Node ρ)) (kind : Kind) (props : Props) (inner : SiblingPosition ρ)
      (after : List (Node ρ))

namespace SiblingPosition

/-- The nodes around a place, with a run of siblings at the place. -/
def fill : SiblingPosition ρ → List (Node ρ) → List (Node ρ)
  | .here before after, run => before ++ run ++ after
  | .inGroup before inner after, run => before ++ .group (inner.fill run) :: after
  | .inPrimitive before kind props inner after, run =>
    before ++ .primitive kind props (inner.fill run) :: after

/-- Runs that are the same without groups leave the same around them. -/
theorem ungroupAll_fill (position : SiblingPosition ρ) {run run' : List (Node ρ)}
    (h : Node.ungroupAll run = Node.ungroupAll run') :
    Node.ungroupAll (position.fill run) = Node.ungroupAll (position.fill run') := by
  induction position with
  | here before after => simp [fill, Node.ungroupAll_append, h]
  | inGroup before inner after ih =>
    simp [fill, Node.ungroupAll_append, Node.ungroupAll, Node.ungroup, ih]
  | inPrimitive before kind props inner after ih =>
    simp [fill, Node.ungroupAll_append, Node.ungroupAll, Node.ungroup, ih]

/-- A group of a run holds what the run is without groups. -/
theorem ungroupAll_fill_group (position : SiblingPosition ρ) (run : List (Node ρ)) :
    Node.ungroupAll (position.fill [.group run]) = Node.ungroupAll (position.fill run) := by
  refine position.ungroupAll_fill ?_
  simp [Node.ungroupAll, Node.ungroup]

end SiblingPosition

/-! ## Expansion without groups -/

variable [ExpansionRule ρ]

/-- A primitive, and the same primitive with or without the groups below it. -/
def Primitive.Ungroups (p q : Primitive ρ) : Prop := q = p ∨ q = p.ungroup

omit [ExpansionRule ρ] in
theorem Primitive.Ungroups.refl (p : Primitive ρ) : p.Ungroups p := .inl rfl

/-- Siblings expand alike with and without groups if each of them does. -/
theorem yieldAll_ungroupAll {limit limit' depth depth' : Nat} {origin origin' : Option String}
    (nodes : List (Node ρ))
    (hwalk : ∀ node : Node ρ,
      Comparison.unlessTooDeep.Holds (List.Forall₂ (Node.Matches Primitive.Ungroups))
        (Pending.walk limit ⟨node, depth, origin⟩).result
        (yieldAll limit' depth' origin' node.ungroup)) :
    Comparison.unlessTooDeep.Holds (List.Forall₂ (Node.Matches Primitive.Ungroups))
      (yieldAll limit depth origin nodes)
      (yieldAll limit' depth' origin' (Node.ungroupAll nodes)) := by
  induction nodes with
  | nil => exact Comparison.ok _ .nil
  | cons node nodes ih =>
    rw [yieldAll_cons, Node.ungroupAll, yieldAll_append]
    refine Comparison.bind _ (hwalk node) ?_
    intro first first' hfirst
    refine Comparison.bind _ ih ?_
    intro others others' hothers
    exact Comparison.ok _ (List.rel_append hfirst hothers)

/--
A node expands like what it stands for without groups, where at least as many levels are left for the
latter.
-/
theorem walk_ungroup {limit limit' depth depth' : Nat}
    (hlevels : limit + 1 - depth ≤ limit' + 1 - depth') (origin origin' : Option String)
    (node : Node ρ) :
    Comparison.unlessTooDeep.Holds (List.Forall₂ (Node.Matches Primitive.Ungroups))
      (Pending.walk limit ⟨node, depth, origin⟩).result
      (yieldAll limit' depth' origin' node.ungroup) := by
  -- Dissolving a group takes a level from the first side only, and the induction is on its levels.
  induction hleft : limit + 1 - depth using Nat.strongRecOn
    generalizing depth depth' origin origin' node with
  | ind left ih =>
    by_cases hdeep : limit < depth
    · rw [Pending.result_walk_deep hdeep]
      exact AgreeUnless.of_excused ⟨_, _, rfl⟩ _
    · have hdeep' : ¬limit' < depth' := by omega
      cases node with
      | primitive kind props children =>
        rw [Node.ungroup, yieldAll_singleton, Pending.result_walk_primitive hdeep,
          Pending.result_walk_primitive hdeep']
        exact Comparison.ok _ (.cons (.some (.inr rfl)) .nil)
      | group children =>
        rw [Pending.result_walk_group hdeep, Node.ungroup]
        refine yieldAll_ungroupAll children ?_
        intro child
        exact ih _ (by omega) (by omega) origin origin' child rfl
      | custom rule props =>
        -- A rule is invoked on both sides, and what it returns stays as it is.
        rw [Node.ungroup, yieldAll_singleton]
        exact (lockstep_levels Primitive.Ungroups.refl limit limit').walk ⟨rfl, hlevels⟩

/-! ## Rendering without groups -/

/-- A tree is compiled like the tree without its groups, unless it goes too deep. -/
theorem simulation_ungroup (limit : Nat) :
    Simulation Comparison.unlessTooDeep limit limit (@Primitive.Ungroups ρ) where
  kind := by
    rintro p q (rfl | rfl)
    · rfl
    · rfl
  agree := by
    rintro p q (rfl | rfl) name -
    · rfl
    · rfl
  expand := by
    rintro p q (rfl | rfl)
    · exact expandAll_levels Primitive.Ungroups.refl (Nat.le_refl limit) _
    · rw [result_expandAll, result_expandAll]
      exact yieldAll_ungroupAll p.children fun node => walk_ungroup (Nat.le_refl _) none none node

theorem Registry.render_ungroup {registry : Registry ρ} (hregistry : registry ⊆ Registry.builtin)
    {limit : Nat} {kind : Kind} {props : Props} {children : List (Node ρ)}
    (hwithin : ¬FailsAtDepth (registry.render limit (.primitive kind props children)).result) :
    (registry.render limit (.primitive kind props (Node.ungroupAll children))).result =
      (registry.render limit (.primitive kind props children)).result := by
  have hungroup : Primitive.Ungroups (⟨kind, props, children⟩ : Primitive ρ)
      ⟨kind, props, Node.ungroupAll children⟩ := .inr rfl
  have hagree := (simulation_ungroup limit).render hregistry hungroup
  exact AgreeUnless.eq_of_not_failsAtDepth hagree hwithin

/--
Groups are transparent: wherever a run of siblings stands below a root, a group of this run can stand
instead, and the other way round.  The outcome is the same, unless one of the two trees goes too deep.
-/
theorem Registry.render_grouped {registry : Registry ρ} (hregistry : registry ⊆ Registry.builtin)
    (limit : Nat) (kind : Kind) (props : Props) (position : SiblingPosition ρ)
    (run : List (Node ρ)) :
    FailsAtDepth (registry.render limit (.primitive kind props (position.fill run))).result ∨
      FailsAtDepth (registry.render limit (.primitive kind props (position.fill [.group run]))).result ∨
      (registry.render limit (.primitive kind props (position.fill [.group run]))).result =
        (registry.render limit (.primitive kind props (position.fill run))).result := by
  by_cases hplain :
      FailsAtDepth (registry.render limit (.primitive kind props (position.fill run))).result
  · exact .inl hplain
  · by_cases hgrouped : FailsAtDepth
        (registry.render limit (.primitive kind props (position.fill [.group run]))).result
    · exact .inr (.inl hgrouped)
    · -- Both trees are rendered like the tree without groups, and that is the same one.
      refine .inr (.inr ?_)
      calc
        (registry.render limit (.primitive kind props (position.fill [.group run]))).result =
            (registry.render limit (.primitive kind props
              (Node.ungroupAll (position.fill [.group run])))).result :=
          (Registry.render_ungroup hregistry hgrouped).symm
        _ = (registry.render limit (.primitive kind props
              (Node.ungroupAll (position.fill run)))).result := by
          rw [position.ungroupAll_fill_group]
        _ = (registry.render limit (.primitive kind props (position.fill run))).result :=
          Registry.render_ungroup hregistry hplain

/-- The place behind the first step of a job that stands in a group of a stage. -/
def behindFirstStep : SiblingPosition TemplateUse :=
  .inPrimitive [] .azureStage [("stage", .text "Check")]
    (.inGroup []
      (.inPrimitive [] .azureJob [("job", .text "lint")]
        (.here [.primitive .azureStep [("script", .text "cargo fmt")] []] []) []) []) []

/-- Two steps, of which the last does nothing. -/
def lastStepIdle : List (Node TemplateUse) :=
  [ .primitive .azureStep [("script", .text "cargo clippy")] [],
    .primitive .azureStep [("condition", .text "always()")] [] ]

/-- The idle step is the third one, whether the last two are in a group or not. -/
theorem render_lastStepIdle :
    ∀ run ∈ [lastStepIdle, [.group lastStepIdle]],
      (Registry.builtin.render 3 (.primitive .azurePipeline [] (behindFirstStep.fill run))).result =
        .error (.validation "step #3 in job 'lint' in stage 'Check'"
          "must set either 'task' or 'script'") := by
  simp only [List.forall_mem_cons]
  refine ⟨?_, ?_, by simp⟩
  · with_unfolding_all rfl
  · with_unfolding_all rfl

theorem Registry.render_grouped_lastStepIdle :
    (Registry.builtin : Registry TemplateUse) ⊆ Registry.builtin ∧
      (Registry.builtin.render 3
        (.primitive .azurePipeline [] (behindFirstStep.fill [.group lastStepIdle]))).result =
      (Registry.builtin.render 3
        (.primitive .azurePipeline [] (behindFirstStep.fill lastStepIdle))).result := by
  have hbuiltin : (Registry.builtin : Registry TemplateUse) ⊆ Registry.builtin := List.Subset.refl _
  have hwithin : ∀ run ∈ [lastStepIdle, [.group lastStepIdle]], ¬FailsAtDepth
      (Registry.builtin.render 3 (.primitive .azurePipeline [] (behindFirstStep.fill run))).result := by
    intro run hrun
    rw [render_lastStepIdle run hrun]
    exact not_failsAtDepth_of_validation
  rcases Registry.render_grouped hbuiltin 3 .azurePipeline [] behindFirstStep lastStepIdle with
    hplain | hgrouped | hsame
  · exact absurd hplain (hwithin _ (by simp))
  · exact absurd hgrouped (hwithin _ (by simp))
  · exact ⟨hbuiltin, hsame⟩

end PipelineTree
