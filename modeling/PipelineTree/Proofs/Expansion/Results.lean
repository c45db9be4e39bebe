import PipelineTree.Proofs.Expansion.Sequence

/-!
# Results — how expansions end

The result of an expansion, without the order of its visits: siblings are expanded one by one and what
they yield is concatenated.
-/

namespace PipelineTree

variable {ρ : Type} [ExpansionRule ρ]

/-! ## Walks -/

omit [ExpansionRule ρ] in
theorem Walk.result_siblings (walks : List (Walk ρ)) :
    (Walk.siblings walks).result = (walks.mapM Walk.result).map List.flatten := by
  induction walks with
  | nil => rfl
  | cons walk walks ih =>
    rw [Walk.siblings, List.mapM_cons]
    cases hfirst : walk.result with
    | error error => rfl
    | ok nodes =>
      simp only [ih]
      cases walks.mapM Walk.result <;> rfl

/-- What the children of a node yield, one level deeper. -/
def yieldAll (limit depth : Nat) (origin : Option String) (nodes : List (Node ρ)) :
    Except Error (List (Node ρ)) :=
  (nodes.mapM fun node => (Pending.walk limit ⟨node, depth, origin⟩).result).map List.flatten

theorem yieldAll_cons (limit depth : Nat) (origin : Option String) (node : Node ρ)
    (nodes : List (Node ρ)) :
    yieldAll limit depth origin (node :: nodes) = (do
      let first ← (Pending.walk limit ⟨node, depth, origin⟩).result
      let others ← yieldAll limit depth origin nodes
      .ok (first ++ others)) := by
  rw [yieldAll, yieldAll, List.mapM_cons]
  cases (Pending.walk limit ⟨node, depth, origin⟩).result with
  | error error => rfl
  | ok first =>
    cases nodes.mapM fun node => (Pending.walk limit ⟨node, depth, origin⟩).result <;> rfl

theorem yieldAll_singleton (limit depth : Nat) (origin : Option String) (node : Node ρ) :
    yieldAll limit depth origin [node] = (Pending.walk limit ⟨node, depth, origin⟩).result := by
  rw [yieldAll, List.mapM_cons, List.mapM_nil]
  cases (Pending.walk limit ⟨node, depth, origin⟩).result with
  | error error => rfl
  | ok nodes => simp [bind, Except.bind, pure, Except.pure, Except.map]

theorem yieldAll_append (limit depth : Nat) (origin : Option String) (front back : List (Node ρ)) :
    yieldAll limit depth origin (front ++ back) = (do
      let first ← yieldAll limit depth origin front
      let others ← yieldAll limit depth origin back
      .ok (first ++ others)) := by
  rw [yieldAll, yieldAll, yieldAll, List.mapM_append]
  cases front.mapM fun node => (Pending.walk limit ⟨node, depth, origin⟩).result with
  | error error => rfl
  | ok yields =>
    cases back.mapM fun node => (Pending.walk limit ⟨node, depth, origin⟩).result with
    | error error => rfl
    | ok more => exact congrArg Except.ok List.flatten_append

theorem Walk.result_siblings_map (limit depth : Nat) (origin : Option String)
    (nodes : List (Node ρ)) :
    (Walk.siblings (nodes.map fun node => Pending.walk limit ⟨node, depth, origin⟩)).result =
      yieldAll limit depth origin nodes := by
  rw [Walk.result_siblings, yieldAll, List.mapM_map]
  rfl

namespace Pending

theorem result_walk_deep {limit depth : Nat} (hdeep : limit < depth) (origin : Option String)
    (node : Node ρ) :
    (walk limit ⟨node, depth, origin⟩).result =
      .error (.depthExceeded limit (origin.getD node.kindName)) := by
  rw [walk, if_pos hdeep]

theorem result_walk_primitive {limit depth : Nat} (hlevel : ¬limit < depth)
    (origin : Option String) (kind : Kind) (props : Props) (children : List (Node ρ)) :
    (walk limit ⟨.primitive kind props children, depth, origin⟩).result =
      .ok [.primitive kind props children] := by
  rw [walk, if_neg hlevel]

theorem result_walk_group {limit depth : Nat} (hlevel : ¬limit < depth) (origin : Option String)
    (children : List (Node ρ)) :
    (walk limit ⟨.group children, depth, origin⟩).result =
      yieldAll limit (depth + 1) origin children := by
  rw [walk, if_neg hlevel]
  exact Walk.result_siblings_map limit (depth + 1) origin children

theorem result_walk_custom_ok {limit depth : Nat} (hlevel : ¬limit < depth)
    (origin : Option String) {rule : ρ} {props : Props} {slot : Slot ρ}
    (hinvoke : ExpansionRule.invoke rule props = .ok slot) :
    (walk limit ⟨.custom rule props, depth, origin⟩).result =
      yieldAll limit (depth + 1) (some (ExpansionRule.name rule)) slot.nodes := by
  rw [walk, if_neg hlevel]
  simp only [hinvoke]
  exact Walk.result_siblings_map limit (depth + 1) _ slot.nodes

theorem result_walk_custom_error {limit depth : Nat} (hlevel : ¬limit < depth)
    (origin : Option String) {rule : ρ} {props : Props} {cause : RuleError}
    (hinvoke : ExpansionRule.invoke rule props = .error cause) :
    (walk limit ⟨.custom rule props, depth, origin⟩).result =
      .error (.expansionFailed (ExpansionRule.name rule) cause) := by
  rw [walk, if_neg hlevel]
  simp only [hinvoke]

end Pending

/-! ## Whole expansions -/

theorem result_expandAll (limit : Nat) (nodes : List (Node ρ)) :
    (expandAll limit nodes).result = yieldAll limit 0 none nodes := by
  rw [expandAll_eq_walk]
  exact Walk.result_siblings_map limit 0 none nodes

theorem result_expand (limit : Nat) (node : Node ρ) :
    (node.expand limit).result = (Pending.walk limit ⟨node, 0, none⟩).result := by
  rw [Node.expand, result_expandAll]
  exact yieldAll_singleton limit 0 none node

theorem result_expandAll_nil (limit : Nat) :
    (expandAll limit ([] : List (Node ρ))).result = .ok [] := by
  rw [expandAll_nil]
  rfl

/-- Primitives are what expansion leaves alone, at every limit. -/
theorem result_expandAll_primitives (limit : Nat) {nodes : List (Node ρ)}
    (h : ∀ node ∈ nodes, node.primitive?.isSome = true) :
    (expandAll limit nodes).result = .ok nodes := by
  rw [expandAll_primitives limit h]
  rfl

end PipelineTree
