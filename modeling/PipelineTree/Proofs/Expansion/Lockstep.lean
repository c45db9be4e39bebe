import PipelineTree.Proofs.Error.Comparison
import PipelineTree.Proofs.Expansion.Results

/-!
# Lockstep — two expansions side by side

Two walks that visit related nodes, and go on with related nodes after every visit, end alike.  This
module says so once, for any relation of pending nodes that visits keep and any `Comparison` of what the
walks end with: `Lockstep.walk` for single nodes, `Lockstep.expandAll` for siblings.

The relation may hold of nodes at different depths, and the limits may differ: what has to be supplied is
one visit (`Lockstep.visit`), and what happens where the first walk is beyond its limit (`Lockstep.deep`).
-/

namespace PipelineTree

namespace Pending

variable {ρ : Type} [ExpansionRule ρ]

/-! ## Single visits -/

theorem result_visit_deep {limit : Nat} {p : Pending ρ} (hdeep : limit < p.depth) :
    (p.visit limit).result = .error (.depthExceeded limit (p.origin.getD p.node.kindName)) := by
  rw [visit, if_pos hdeep]
  rfl

theorem result_visit_primitive {limit depth : Nat} (hlevel : depth ≤ limit)
    (origin : Option String) (kind : Kind) (props : Props) (children : List (Node ρ)) :
    (visit limit ⟨.primitive kind props children, depth, origin⟩).result =
      .ok ⟨[.primitive kind props children], []⟩ := by
  rw [visit, if_neg (Nat.not_lt.2 hlevel)]
  rfl

theorem result_visit_group {limit depth : Nat} (hlevel : depth ≤ limit) (origin : Option String)
    (children : List (Node ρ)) :
    (visit limit ⟨.group children, depth, origin⟩).result =
      .ok ⟨[], children.map (⟨·, depth + 1, origin⟩)⟩ := by
  rw [visit, if_neg (Nat.not_lt.2 hlevel)]
  rfl

/-- Where a rule is invoked, only its node counts: the visit fails with the rule, or goes on with what
the rule returned. -/
theorem result_visit_custom {limit depth : Nat} (hlevel : depth ≤ limit) (origin : Option String)
    (rule : ρ) (props : Props) :
    (visit limit ⟨.custom rule props, depth, origin⟩).result =
      match ExpansionRule.invoke rule props with
      | .error cause => .error (.expansionFailed (ExpansionRule.name rule) cause)
      | .ok slot =>
        .ok ⟨[], slot.nodes.map (⟨·, depth + 1, some (ExpansionRule.name rule)⟩)⟩ := by
  have hwithin : ¬limit < depth := Nat.not_lt.2 hlevel
  cases hinvoke : ExpansionRule.invoke rule props with
  | error cause => simp [visit, hwithin, hinvoke]
  | ok slot => simp [visit, hwithin, hinvoke]

/-- A walk is a visit, and then the walks of the nodes that are to be visited instead. -/
theorem result_walk (limit : Nat) (p : Pending ρ) :
    (p.walk limit).result = (do
      let next ← (p.visit limit).result
      let yields ← next.pending.mapM fun q => (q.walk limit).result
      .ok (next.output ++ yields.flatten)) := by
  have hbelow : ∀ (depth : Nat) (origin : Option String) (nodes : List (Node ρ)),
      yieldAll limit depth origin nodes = (do
        let yields ← (nodes.map fun node => (⟨node, depth, origin⟩ : Pending ρ)).mapM
          fun q => (q.walk limit).result
        .ok ([] ++ yields.flatten)) := by
    intro depth origin nodes
    have hmap : ((nodes.map fun node => (⟨node, depth, origin⟩ : Pending ρ)).mapM
        fun q => (q.walk limit).result) =
        nodes.mapM fun node => (walk limit ⟨node, depth, origin⟩).result := List.mapM_map
    rw [yieldAll, hmap]
    cases nodes.mapM fun node => (walk limit ⟨node, depth, origin⟩).result <;> rfl
  rcases p with ⟨node, depth, origin⟩
  by_cases hdeep : limit < depth
  · rw [result_walk_deep hdeep, result_visit_deep hdeep]
    rfl
  · have hlevel : depth ≤ limit := Nat.le_of_not_lt hdeep
    cases node with
    | primitive kind props children =>
      rw [result_walk_primitive hdeep, result_visit_primitive hlevel]
      rfl
    | group children =>
      rw [result_walk_group hdeep, result_visit_group hlevel]
      exact hbelow (depth + 1) origin children
    | custom rule props =>
      rw [result_visit_custom hlevel]
      cases hinvoke : ExpansionRule.invoke rule props with
      | error cause =>
        rw [result_walk_custom_error hdeep _ hinvoke]
        rfl
      | ok slot =>
        rw [result_walk_custom_ok hdeep _ hinvoke]
        exact hbelow (depth + 1) _ slot.nodes

end Pending

/-! ## Walks in lockstep -/

section Lockstep

variable {ρ σ : Type}

/-- Related nodes wait to be visited in pairs, each side at a depth and with an origin of its own. -/
theorem Pending.forall₂_map {R : Node ρ → Node σ → Prop} {Q : Pending ρ → Pending σ → Prop}
    {depth depth' : Nat} {origin origin' : Option String} {nodes : List (Node ρ)}
    {nodes' : List (Node σ)} (hnodes : List.Forall₂ R nodes nodes')
    (hpair : ∀ m n, R m n → Q ⟨m, depth, origin⟩ ⟨n, depth', origin'⟩) :
    List.Forall₂ Q (nodes.map (⟨·, depth, origin⟩)) (nodes'.map (⟨·, depth', origin'⟩)) := by
  rw [List.forall₂_map_left_iff, List.forall₂_map_right_iff]
  exact hnodes.imp hpair

variable [ExpansionRule ρ] [ExpansionRule σ]

/-- Visits that yield related nodes and lead to related pending nodes. -/
structure Visited.Related (N : Node ρ → Node σ → Prop) (Q : Pending ρ → Pending σ → Prop)
    (v : Visited ρ) (w : Visited σ) : Prop where
  output : List.Forall₂ N v.output w.output
  pending : List.Forall₂ Q v.pending w.pending

/--
A relation of pending nodes that is kept by visits, as long as the first walk is within its limit; what
visits yield is related by `N`.
-/
structure Lockstep (C : Comparison) (limit limit' : Nat) (N : Node ρ → Node σ → Prop)
    (Q : Pending ρ → Pending σ → Prop) : Prop where
  deep : ∀ {p q}, Q p q → limit < p.depth →
    C.Holds (List.Forall₂ N) (p.walk limit).result (q.walk limit').result
  visit : ∀ {p q}, Q p q → p.depth ≤ limit →
    C.Holds (Visited.Related N fun p' q' => Q p' q' ∧ p'.depth = p.depth + 1)
      (p.visit limit).result (q.visit limit').result

namespace Lockstep

variable {C : Comparison} {limit limit' : Nat} {N : Node ρ → Node σ → Prop}
  {Q : Pending ρ → Pending σ → Prop}

/-- Walks from related nodes end alike. -/
theorem walk (h : Lockstep C limit limit' N Q) {p : Pending ρ} {q : Pending σ} (hpq : Q p q) :
    C.Holds (List.Forall₂ N) (p.walk limit).result (q.walk limit').result := by
  -- Rules return any nodes, so the induction is on the levels that the first walk has left.
  induction hlevels : limit + 1 - p.depth using Nat.strongRecOn generalizing p q with
  | ind levels ih =>
    by_cases hdeep : limit < p.depth
    · exact h.deep hpq hdeep
    · have hlevel : p.depth ≤ limit := Nat.le_of_not_lt hdeep
      rw [Pending.result_walk, Pending.result_walk]
      refine C.bind (h.visit hpq hlevel) ?_
      rintro v w ⟨houtput, hpending⟩
      have hyields : C.Holds (List.Forall₂ (List.Forall₂ N))
          (v.pending.mapM fun p' => (p'.walk limit).result)
          (w.pending.mapM fun q' => (q'.walk limit').result) := by
        refine C.mapM hpending ?_
        rintro p' q' ⟨hpq', hdepth⟩
        exact ih _ (by omega) hpq' rfl
      refine C.bind hyields ?_
      intro yields yields' hrelated
      exact C.ok (List.rel_append houtput (List.rel_flatten hrelated))

theorem yieldAll (h : Lockstep C limit limit' N Q) {depth depth' : Nat}
    {origin origin' : Option String} {nodes : List (Node ρ)} {nodes' : List (Node σ)}
    (hnodes : List.Forall₂ (fun m n => Q ⟨m, depth, origin⟩ ⟨n, depth', origin'⟩) nodes nodes') :
    C.Holds (List.Forall₂ N) (yieldAll limit depth origin nodes)
      (yieldAll limit' depth' origin' nodes') := by
  refine C.map (C.mapM hnodes fun m n hmn => h.walk hmn) ?_
  intro yields yields' hrelated
  exact List.rel_flatten hrelated

/-- Siblings that are related one by one expand alike. -/
theorem expandAll (h : Lockstep C limit limit' N Q) {nodes : List (Node ρ)}
    {nodes' : List (Node σ)}
    (hnodes : List.Forall₂ (fun m n => Q ⟨m, 0, none⟩ ⟨n, 0, none⟩) nodes nodes') :
    C.Holds (List.Forall₂ N) (expandAll limit nodes).result (expandAll limit' nodes').result := by
  rw [result_expandAll, result_expandAll]
  exact h.yieldAll hnodes

end Lockstep

end Lockstep

end PipelineTree
