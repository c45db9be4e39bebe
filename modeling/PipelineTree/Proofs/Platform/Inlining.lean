import PipelineTree.Proofs.Expansion.Lockstep
import PipelineTree.Proofs.Platform.Simulation

/-!
# Inlining — a custom node or a group of what it stands for

`Node.Inlines` relates a tree to one in which custom nodes may be replaced by groups of the nodes their
rules return.  Both are one level above what they stand for, so the trees are expanded alike; only the
rule that is named when the depth limit is hit may differ.
-/

namespace PipelineTree

/-- An error without the name of the rule that was being expanded at the depth limit. -/
def Error.withoutRule : Error → Error
  | .depthExceeded limit _ => .depthExceeded limit ""
  | other => other

variable {ρ : Type} [ExpansionRule ρ]

/-! ## Inlined trees -/

/-- A tree, and the same tree with some custom nodes replaced by groups of what their rules return. -/
inductive Node.Inlines : Node ρ → Node ρ → Prop where
  | primitive (kind : Kind) (props : Props) {children children' : List (Node ρ)} :
      List.Forall₂ Node.Inlines children children' →
        Node.Inlines (.primitive kind props children) (.primitive kind props children')
  | group {children children' : List (Node ρ)} :
      List.Forall₂ Node.Inlines children children' →
        Node.Inlines (.group children) (.group children')
  | custom (rule : ρ) (props : Props) : Node.Inlines (.custom rule props) (.custom rule props)
  | inline {rule : ρ} {props : Props} {slot : Slot ρ} :
      ExpansionRule.invoke rule props = .ok slot →
        Node.Inlines (.custom rule props) (.group slot.nodes)

namespace Node.Inlines

mutual

theorem refl : ∀ node : Node ρ, Node.Inlines node node
  | .primitive kind props children => .primitive kind props (reflAll children)
  | .group children => .group (reflAll children)
  | .custom rule props => .custom rule props

theorem reflAll : ∀ nodes : List (Node ρ), List.Forall₂ Node.Inlines nodes nodes
  | [] => .nil
  | node :: nodes => .cons (refl node) (reflAll nodes)

end

end Node.Inlines

/-- Primitives that are the same but for their children, which may be inlined. -/
def Primitive.Inlines (p q : Primitive ρ) : Prop :=
  p.kind = q.kind ∧ p.props = q.props ∧ List.Forall₂ Node.Inlines p.children q.children

/-! ## Expansion -/

/-- What differs between errors of trees that are inlined and those that are not. -/
abbrev Comparison.upToRule : Comparison := .through Error.withoutRule

/-- Inlined nodes are visited in lockstep, under whatever origins. -/
theorem lockstep_inlines (limit : Nat) :
    Lockstep Comparison.upToRule limit limit (Node.Matches (@Primitive.Inlines ρ _))
      fun p q => Node.Inlines p.node q.node ∧ p.depth = q.depth where
  deep := by
    rintro ⟨m, depth, origin⟩ ⟨n, _, origin'⟩ ⟨-, rfl⟩ hdeep
    -- The errors name different rules here, and this is where the outcomes may differ.
    rw [Pending.result_walk_deep hdeep, Pending.result_walk_deep hdeep]
    rfl
  visit := by
    rintro ⟨m, depth, origin⟩ ⟨n, _, origin'⟩ ⟨hinlines, rfl⟩ (hlevel : depth ≤ limit)
    have hpending : ∀ {name name' : Option String} {nodes nodes' : List (Node ρ)},
        List.Forall₂ Node.Inlines nodes nodes' →
        List.Forall₂ (fun p q : Pending ρ => (Node.Inlines p.node q.node ∧ p.depth = q.depth) ∧
            p.depth = depth + 1)
          (nodes.map (⟨·, depth + 1, name⟩)) (nodes'.map (⟨·, depth + 1, name'⟩)) := by
      intro name name' nodes nodes' hnodes
      exact Pending.forall₂_map hnodes fun _ _ hmn => ⟨⟨hmn, rfl⟩, rfl⟩
    cases hinlines with
    | primitive kind props hchildren =>
      rw [Pending.result_visit_primitive hlevel, Pending.result_visit_primitive hlevel]
      exact Comparison.ok _ ⟨.cons (.some ⟨rfl, rfl, hchildren⟩) .nil, .nil⟩
    | group hchildren =>
      rw [Pending.result_visit_group hlevel, Pending.result_visit_group hlevel]
      exact Comparison.ok _ ⟨.nil, hpending hchildren⟩
    | custom rule props =>
      rw [Pending.result_visit_custom hlevel, Pending.result_visit_custom hlevel]
      cases ExpansionRule.invoke rule props with
      | error cause => exact Comparison.error _ _
      | ok slot => exact Comparison.ok _ ⟨.nil, hpending (Node.Inlines.reflAll _)⟩
    | inline hinvoke =>
      -- What the rule returned is one level deeper on both sides, under different origins.
      rw [Pending.result_visit_custom hlevel, Pending.result_visit_group hlevel, hinvoke]
      exact Comparison.ok _ ⟨.nil, hpending (Node.Inlines.reflAll _)⟩

/-! ## Rendering -/

theorem simulation_inlines (limit : Nat) :
    Simulation Comparison.upToRule limit limit (@Primitive.Inlines ρ _) where
  kind h := h.1
  agree := by
    rintro p q ⟨-, hprops, -⟩ name -
    rw [hprops]
  expand := by
    rintro p q ⟨-, -, hchildren⟩
    exact (lockstep_inlines limit).expandAll (hchildren.imp fun m n hmn => ⟨hmn, rfl⟩)

/-- Inlining below the root leaves the outcome as it is, but for the rule that an error may name. -/
theorem Node.Inlines.render {m n : Node ρ} (h : Node.Inlines m n) (hname : m.kindName = n.kindName)
    (limit : Nat) :
    (Registry.builtin.render limit n).result.mapError Error.withoutRule =
      (Registry.builtin.render limit m).result.mapError Error.withoutRule := by
  refine (agreeThrough_eq_iff.1 ?_).symm
  cases h with
  | primitive kind props hchildren =>
    exact (simulation_inlines limit).render (List.Subset.refl _) ⟨rfl, rfl, hchildren⟩
  | group hchildren => rfl
  | custom rule props => rfl
  | inline hinvoke => exact congrArg Outcome.noRenderer hname

end PipelineTree
