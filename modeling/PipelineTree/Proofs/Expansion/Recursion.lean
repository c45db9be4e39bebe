import PipelineTree.Proofs.Error.Comparison
import PipelineTree.Proofs.Expansion.Results
import PipelineTree.Proofs.Value.Pairing

/-!
# Recursion — rules that lead back to themselves

Some rules recur if each of them, whatever its properties are, fails or returns a tree in which one of them
stands again.  A tree with such a rule is never expanded: a successful expansion would hold a successful
expansion of a tree with such a rule one level deeper, and the levels are bounded
(`Node.expand_of_invokes`).
-/

namespace PipelineTree

variable {ρ : Type} [ExpansionRule ρ]

/-- A custom node with one of some rules stands in a tree, below groups at most. -/
inductive Node.Invokes {ρ : Type} (rules : ρ → Prop) : Node ρ → Prop where
  | custom {rule : ρ} (props : Props) : rules rule → Invokes rules (.custom rule props)
  | group {children : List (Node ρ)} {child : Node ρ} :
      child ∈ children → Invokes rules child → Invokes rules (.group children)

theorem Node.Invokes.mono {ρ : Type} {rules others : ρ → Prop} {node : Node ρ}
    (h : node.Invokes rules) (himplies : ∀ rule, rules rule → others rule) : node.Invokes others := by
  induction h with
  | custom props hrule => exact .custom props (himplies _ hrule)
  | group hchild _ ih => exact .group hchild ih

/-- Whatever one of some rules returns, one of these rules stands in it again. -/
def Recur (rules : ρ → Prop) : Prop :=
  ∀ rule, rules rule → ∀ props slot, ExpansionRule.invoke rule props = .ok slot →
    ∃ node ∈ slot.nodes, node.Invokes rules

/-! ## How expansions fail -/

/-- The failures that expansion knows: the depth limit, and those of rules. -/
def Error.OfExpansion (limit : Nat) (error : Error) : Prop :=
  ∃ rule, error = .depthExceeded limit rule ∨ ∃ cause, error = .expansionFailed rule cause

theorem Pending.ofExpansion_of_failure? {limit : Nat} {p : Pending ρ} {error : Error}
    (h : p.failure? limit = some error) : error.OfExpansion limit := by
  rcases p with ⟨node, depth, origin⟩
  by_cases hdeep : limit < depth
  · simp only [failure?, hdeep, if_true, Option.some.injEq] at h
    exact ⟨_, .inl h.symm⟩
  · cases node with
    | primitive => simp [failure?, hdeep] at h
    | group => simp [failure?, hdeep] at h
    | custom rule props =>
      cases hinvoke : ExpansionRule.invoke rule props with
      | ok slot => simp [failure?, hdeep, hinvoke] at h
      | error cause =>
        simp only [failure?, hdeep, hinvoke, if_false, Option.some.injEq] at h
        exact ⟨_, .inr ⟨cause, h.symm⟩⟩

/-- An expansion fails as the last visit does. -/
theorem ofExpansion_of_expandAll {limit : Nat} {nodes : List (Node ρ)} {error : Error}
    (h : (expandAll limit nodes).result = .error error) : error.OfExpansion limit := by
  have hresult : (Walk.ofNodes limit nodes).result = .error error := by
    rwa [expandAll_eq_walk] at h
  have hstops := (loop_walk limit nodes).stopsAtFailure
  simp only [StopsAtFailure, hresult] at hstops
  rcases hstops with ⟨before, last, -, hlast, -⟩
  exact Pending.ofExpansion_of_failure? hlast

/-! ## Rules that recur -/

/-- Where nodes are expanded, each of them is. -/
theorem yieldAll_ok {limit depth : Nat} {origin : Option String} {nodes yield : List (Node ρ)}
    (h : yieldAll limit depth origin nodes = .ok yield) {node : Node ρ} (hnode : node ∈ nodes) :
    ∃ part, (Pending.walk limit ⟨node, depth, origin⟩).result = .ok part := by
  rcases Run.map_eq_ok_iff.1 h with ⟨parts, hparts, -⟩
  rcases exists_of_mem_left (Run.mapM_eq_ok_iff.1 hparts) hnode with ⟨part, -, hpart⟩
  exact ⟨part, hpart⟩

theorem Recur.not_walk {rules : ρ → Prop} (h : Recur rules) (limit : Nat) {p : Pending ρ}
    (hp : p.node.Invokes rules) (yield : List (Node ρ)) : (p.walk limit).result ≠ .ok yield := by
  -- The levels that are left decrease, and at the last one the limit is met.
  induction hlevels : limit + 1 - p.depth using Nat.strongRecOn generalizing p yield with
  | ind levels ih =>
    rcases p with ⟨node, depth, origin⟩
    intro hwalk
    by_cases hdeep : limit < depth
    · simp [Pending.result_walk_deep hdeep] at hwalk
    · have hbelow : ∀ {origin : Option String} {nodes : List (Node ρ)},
          yieldAll limit (depth + 1) origin nodes = .ok yield →
            ∀ child ∈ nodes, ¬child.Invokes rules := by
        intro origin nodes hyield child hchild hinvokes
        rcases yieldAll_ok hyield hchild with ⟨part, hpart⟩
        have hless : limit + 1 - (depth + 1) < levels := by
          simp only at hlevels
          omega
        exact ih _ hless hinvokes part rfl hpart
      cases hp with
      | group hchild hinvokes =>
        rw [Pending.result_walk_group hdeep] at hwalk
        exact hbelow hwalk _ hchild hinvokes
      | @custom rule props hrule =>
        cases hinvoke : ExpansionRule.invoke rule props with
        | error cause => simp [Pending.result_walk_custom_error hdeep origin hinvoke] at hwalk
        | ok slot =>
          rcases h rule hrule props slot hinvoke with ⟨child, hchild, hinvokes⟩
          rw [Pending.result_walk_custom_ok hdeep origin hinvoke] at hwalk
          exact hbelow hwalk child hchild hinvokes

/-- A tree with rules that recur cannot be expanded, whatever the limit is. -/
theorem Node.expand_of_invokes {rules : ρ → Prop} (h : Recur rules) {node : Node ρ}
    (hnode : node.Invokes rules) (limit : Nat) :
    ∃ error, (node.expand limit).result = .error error ∧ error.OfExpansion limit := by
  cases hresult : (node.expand limit).result with
  | error error => exact ⟨error, rfl, ofExpansion_of_expandAll hresult⟩
  | ok yield =>
    rw [result_expand] at hresult
    exact absurd hresult (h.not_walk limit hnode yield)

end PipelineTree
