import PipelineTree.Proofs.Expansion.DepthFirst

/-!
# Sequence — siblings are expanded one after the other

One worklist for a list of nodes does what a worklist for each of them does, one after the other
(`expandAll_eq_forEach`): every sibling starts at depth zero without an origin, and the first failure stops
both.  Collecting leaves restarts the worklist for every child and warns in between.  Without the warnings
it is the expansion of all children at once, with the leaves kept (`traced_collectLeaves`), so both end
alike and invoke the same rules in the same order (`collectLeaves_agrees`).
-/

namespace PipelineTree

/-! ## Runs without warnings -/

namespace Run

variable {α β γ : Type}

/-- A run with the traces among its reports and nothing else. -/
def traced (run : Run α) : Run α := ⟨run.events.filter (·.level == .trace), run.result⟩

theorem traced_done (value : α) : (done value).traced = done value := rfl

theorem traced_andThen (first : Run α) (next : α → Run β) :
    (first.andThen next).traced = first.traced.andThen fun value => (next value).traced := by
  rcases first with ⟨events, result⟩
  cases result with
  | error error => rfl
  | ok value => simp [andThen, traced]

theorem traced_forEach (f : α → Run β) (items : List α) :
    (forEach f items).traced = forEach (fun item => (f item).traced) items := by
  induction items with
  | nil => rfl
  | cons item items ih =>
    simp only [forEach, bind_eq, pure_eq, traced_andThen, traced_done, ih]

/-- What is done with each value of a loop can be done with all of them behind it. -/
theorem forEach_andThen_done (f : α → Run β) (g : β → γ) (items : List α) :
    forEach (fun item => (f item).andThen fun value => done (g value)) items =
      (forEach f items).andThen fun values => done (values.map g) := by
  induction items with
  | nil => rfl
  | cons item items ih =>
    simp only [forEach, bind_eq, pure_eq, ih, andThen_assoc, done_andThen, List.map_cons]

end Run

variable {ρ : Type} [ExpansionRule ρ]

/-! ## One worklist for all siblings -/

theorem expandAll_nil (limit : Nat) : expandAll limit ([] : List (Node ρ)) = .done [] := by
  rw [expandAll_eq_walk]
  rfl

theorem expandAll_cons (limit : Nat) (node : Node ρ) (nodes : List (Node ρ)) :
    expandAll limit (node :: nodes) =
      (node.expand limit).andThen fun first =>
        (expandAll limit nodes).andThen fun others => .done (first ++ others) := by
  simp only [Node.expand, expandAll_eq_walk, Walk.ofNodes, List.map_cons, List.map_nil,
    Walk.siblings]
  -- The walk of all siblings goes on to the others only where that of the first one succeeds.
  cases (Pending.walk limit ⟨node, 0, none⟩).result with
  | error error => rfl
  | ok first =>
    cases (Walk.siblings (nodes.map fun node => Pending.walk limit ⟨node, 0, none⟩)).result with
    | error error => simp [Run.andThen, Except.map]
    | ok others => simp [Run.andThen, Run.done, Except.map]

theorem expandAll_eq_forEach (limit : Nat) (nodes : List (Node ρ)) :
    expandAll limit nodes =
      (Run.forEach (Node.expand limit) nodes).andThen fun yields => .done yields.flatten := by
  induction nodes with
  | nil => exact expandAll_nil limit
  | cons node nodes ih =>
    simp only [expandAll_cons, ih, Run.forEach, Run.bind_eq, Run.pure_eq, Run.andThen_assoc,
      Run.done_andThen, List.flatten_cons]

/-- Primitives are what expansion leaves alone, at every limit, and no rule is invoked for them. -/
theorem expandAll_primitives (limit : Nat) {nodes : List (Node ρ)}
    (h : ∀ node ∈ nodes, node.primitive?.isSome = true) : expandAll limit nodes = .done nodes := by
  induction nodes with
  | nil => exact expandAll_nil limit
  | cons node nodes ih =>
    rcases List.forall_mem_cons.1 h with ⟨hnode, hnodes⟩
    have hexpand : node.expand limit = .done [node] := by
      cases node with
      | primitive kind props children =>
        -- Depth zero is within every limit.
        have hwalk : Pending.walk limit ⟨.primitive kind props children, 0, none⟩ =
            ⟨[⟨.primitive kind props children, 0, none⟩], .ok [.primitive kind props children]⟩ := by
          rw [Pending.walk, if_neg (Nat.not_lt_zero limit)]
        rw [Node.expand, expandAll_eq_walk]
        simp [Walk.ofNodes, Walk.siblings, hwalk, Pending.invocation?, Except.map, Run.done]
      | group children => cases hnode
      | custom rule props => cases hnode
    rw [expandAll_cons, hexpand, ih hnodes]
    rfl

/-! ## What expansion reports -/

theorem Pending.level_of_invocation? {limit : Nat} {p : Pending ρ} {event : Event}
    (h : p.invocation? limit = some event) : event.level = .trace := by
  rw [invocation?] at h
  split at h
  · cases h
  · split at h
    · cases h
      rfl
    · cases h

theorem level_of_mem_events {limit : Nat} {nodes : List (Node ρ)} {event : Event}
    (h : event ∈ (expandAll limit nodes).events) : event.level = .trace := by
  rw [expandAll_eq_walk] at h
  rcases List.mem_filterMap.1 h with ⟨p, -, hp⟩
  exact Pending.level_of_invocation? hp

theorem traced_expandAll (limit : Nat) (nodes : List (Node ρ)) :
    (expandAll limit nodes).traced = expandAll limit nodes := by
  have hevents : (expandAll limit nodes).events.filter (·.level == .trace) =
      (expandAll limit nodes).events := by
    rw [List.filter_eq_self]
    intro event hevent
    simp [level_of_mem_events hevent]
  rw [Run.traced, hevents]

/-! ## Leaves -/

theorem traced_foreignEvents (leaf : Kind) (nodes : List (Node ρ)) :
    (Run.report (foreignEvents leaf nodes)).traced = .done () := by
  have hnone : (foreignEvents leaf nodes).filter (·.level == .trace) = [] := by
    rw [List.filter_eq_nil_iff]
    intro event hevent
    rcases List.mem_map.1 hevent with ⟨node, -, rfl⟩
    simp [Event.level]
  rw [Run.report, Run.traced, hnone]
  rfl

theorem traced_leaves (limit : Nat) (leaf : Kind) (child : Node ρ) :
    (child.leaves limit leaf).traced =
      (child.expand limit).andThen fun nodes => .done (nodes.filter (·.isKind leaf)) := by
  simp only [Node.leaves, Node.expand, Run.bind_eq, Run.pure_eq, Run.traced_andThen,
    Run.traced_done, traced_expandAll, traced_foreignEvents, Run.done_andThen]

theorem traced_collectLeaves (limit : Nat) (leaf : Kind) (children : List (Node ρ)) :
    (collectLeaves limit leaf children).traced =
      (expandAll limit children).andThen fun nodes => .done (nodes.filter (·.isKind leaf)) := by
  -- Keeping the leaves of each child and then joining them is keeping the leaves of all.
  simp only [collectLeaves, Run.bind_eq, Run.pure_eq, Run.traced_andThen, Run.traced_forEach,
    Run.traced_done, traced_leaves, Run.forEach_andThen_done, expandAll_eq_forEach, Run.andThen_assoc,
    Run.done_andThen, List.filter_flatten]

theorem result_collectLeaves (limit : Nat) (leaf : Kind) (children : List (Node ρ)) :
    (collectLeaves limit leaf children).result =
      (expandAll limit children).result.map (·.filter (·.isKind leaf)) := by
  have hresult := congrArg Run.result (traced_collectLeaves limit leaf children)
  rw [Run.result_andThen] at hresult
  exact hresult.trans (by cases (expandAll limit children).result <;> rfl)

/--
The leaves that are collected child by child are exactly those among the expanded children, in their
order; collecting fails exactly if the children fail to expand, and with the same error.  The rules that
are invoked on the way are the same ones in the same order.
-/
theorem collectLeaves_agrees (limit : Nat) (leaf : Kind) (children : List (Node ρ)) :
    (∀ leaves, (collectLeaves limit leaf children).result = .ok leaves ↔
      ∃ nodes, (expandAll limit children).result = .ok nodes ∧
        leaves = nodes.filter (·.isKind leaf)) ∧
    (∀ error, (collectLeaves limit leaf children).result = .error error ↔
      (expandAll limit children).result = .error error) ∧
    (collectLeaves limit leaf children).traced.events = (expandAll limit children).events := by
  refine ⟨?_, ?_, ?_⟩
  · intro leaves
    rw [result_collectLeaves]
    cases (expandAll limit children).result with
    | error error => simp [Except.map]
    | ok nodes => simp [Except.map, eq_comm]
  · intro error
    rw [result_collectLeaves]
    cases (expandAll limit children).result with
    | error error => simp [Except.map]
    | ok nodes => simp [Except.map]
  · rw [traced_collectLeaves, Run.andThen]
    cases (expandAll limit children).result with
    | error error => rfl
    | ok nodes => simp [Run.done]

end PipelineTree
