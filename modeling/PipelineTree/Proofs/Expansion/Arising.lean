import PipelineTree.Proofs.Expansion.DepthFirst

/-!
# Arising — the nodes that come up in expansions

`Node.Arises` follows a tree down to its children, and from a custom node on to whatever its rule returns, without
limit.  What the loop visits arises from what it starts with, and so does what it yields; so a rule that fails is
one of a node that arises (`arises_of_failed`).
-/

namespace PipelineTree

variable {ρ : Type} [ExpansionRule ρ]

/-- A node comes up in a tree, or in what the rules of nodes that come up return. -/
inductive Node.Arises (root : Node ρ) : Node ρ → Prop where
  | root : Arises root root
  | child {kind : Kind} {props : Props} {children : List (Node ρ)} {child : Node ρ} :
      Arises root (.primitive kind props children) → child ∈ children → Arises root child
  | member {children : List (Node ρ)} {child : Node ρ} :
      Arises root (.group children) → child ∈ children → Arises root child
  | returned {rule : ρ} {props : Props} {slot : Slot ρ} {node : Node ρ} :
      Arises root (.custom rule props) → ExpansionRule.invoke rule props = .ok slot →
        node ∈ slot.nodes → Arises root node

variable {root : Node ρ} {limit : Nat}

/-- What a visit yields and leads to arises as the visited node does. -/
theorem Pending.arises_visit {p : Pending ρ} {next : Visited ρ} (h : root.Arises p.node)
    (hvisit : (p.visit limit).result = .ok next) :
    (∀ node ∈ next.output, root.Arises node) ∧ ∀ q ∈ next.pending, root.Arises q.node := by
  rcases p with ⟨node, depth, origin⟩
  by_cases hdeep : limit < depth
  · simp [visit, hdeep] at hvisit
  · cases node with
    | primitive kind props children =>
      simp only [visit, hdeep, if_false, Run.result_done, Except.ok.injEq] at hvisit
      subst hvisit
      exact ⟨by simpa using h, by simp⟩
    | group children =>
      simp only [visit, hdeep, if_false, Run.result_done, Except.ok.injEq] at hvisit
      subst hvisit
      refine ⟨by simp, ?_⟩
      intro q hq
      rcases List.mem_map.1 hq with ⟨child, hchild, rfl⟩
      exact .member h hchild
    | custom rule props =>
      cases hinvoke : ExpansionRule.invoke rule props with
      | error cause => simp [visit, hdeep, hinvoke] at hvisit
      | ok slot =>
        simp only [visit, hdeep, if_false, hinvoke, Except.ok.injEq] at hvisit
        subst hvisit
        refine ⟨by simp, ?_⟩
        intro q hq
        rcases List.mem_map.1 hq with ⟨node, hnode, rfl⟩
        exact .returned h hinvoke hnode

/-- If all that waits and all that is done arises, so does all that is visited and all that is yielded. -/
theorem Loop.arises {stack visited : List (Pending ρ)} {output : Array (Node ρ)}
    {events : Array Event} {run : Run (List (Node ρ))}
    (h : Loop limit stack output events visited run) (hstack : ∀ p ∈ stack, root.Arises p.node)
    (houtput : ∀ node ∈ output.toList, root.Arises node) :
    (∀ p ∈ visited, root.Arises p.node) ∧
      ∀ yield, run.result = .ok yield → ∀ node ∈ yield, root.Arises node := by
  -- What is kept from step to step is that the stack and the output arise.
  induction h with
  | finish output events =>
    refine ⟨by simp, ?_⟩
    rintro yield ⟨⟩
    exact houtput
  | fail rest output events _ =>
    rcases List.forall_mem_cons.1 hstack with ⟨hp, -⟩
    refine ⟨by simpa using hp, ?_⟩
    rintro yield ⟨⟩
  | @step p next rest visited output events run hnext _ ih =>
    rcases List.forall_mem_cons.1 hstack with ⟨hp, hrest⟩
    rcases Pending.arises_visit hp hnext with ⟨hdone, hpending⟩
    have hall : ∀ node ∈ (output ++ next.output).toList, root.Arises node := by
      rw [Array.toList_appendList]
      exact List.forall_mem_append.2 ⟨houtput, hdone⟩
    rcases ih (List.forall_mem_append.2 ⟨hpending, hrest⟩) hall with ⟨hvisited, hyield⟩
    exact ⟨List.forall_mem_cons.2 ⟨hp, hvisited⟩, hyield⟩

theorem arises_walk {nodes : List (Node ρ)} (h : ∀ node ∈ nodes, root.Arises node) :
    (∀ p ∈ (Walk.ofNodes limit nodes).visited, root.Arises p.node) ∧
      ∀ yield, (expandAll limit nodes).result = .ok yield → ∀ node ∈ yield, root.Arises node := by
  rw [expandAll_eq_walk]
  refine (loop_walk limit nodes).arises ?_ (by simp)
  intro p hp
  rcases List.mem_map.1 hp with ⟨node, hnode, rfl⟩
  exact h node hnode

/-- What an expansion yields arises from its nodes. -/
theorem arises_of_yielded {nodes yield : List (Node ρ)} (h : ∀ node ∈ nodes, root.Arises node)
    (hyield : (expandAll limit nodes).result = .ok yield) : ∀ node ∈ yield, root.Arises node :=
  (arises_walk h).2 yield hyield

/-- An expansion fails at the limit, or as the rule of a custom node that arises from its nodes. -/
theorem arises_of_failed {nodes : List (Node ρ)} {error : Error} (h : ∀ node ∈ nodes, root.Arises node)
    (herror : (expandAll limit nodes).result = .error error) :
    (∃ rule, error = .depthExceeded limit rule) ∨
      ∃ rule props cause, root.Arises (.custom rule props) ∧
        ExpansionRule.invoke rule props = .error cause ∧
        error = .expansionFailed (ExpansionRule.name rule) cause := by
  -- The loop fails at the last node that it visits, and this one arises as all others do.
  have hresult : (Walk.ofNodes limit nodes).result = .error error := by
    rwa [expandAll_eq_walk] at herror
  have hstops := (loop_walk limit nodes).stopsAtFailure
  simp only [StopsAtFailure, hresult] at hstops
  rcases hstops with ⟨before, ⟨node, depth, origin⟩, hvisited, hlast, -⟩
  have harises : ∀ p ∈ (Walk.ofNodes limit nodes).visited, root.Arises p.node := (arises_walk h).1
  have hnode : root.Arises node := harises ⟨node, depth, origin⟩ (by simp [hvisited])
  by_cases hdeep : limit < depth
  · simp only [Pending.failure?, hdeep, if_true, Option.some.injEq] at hlast
    exact .inl ⟨_, hlast.symm⟩
  · cases node with
    | primitive => simp [Pending.failure?, hdeep] at hlast
    | group => simp [Pending.failure?, hdeep] at hlast
    | custom rule props =>
      cases hinvoke : ExpansionRule.invoke rule props with
      | ok slot => simp [Pending.failure?, hdeep, hinvoke] at hlast
      | error cause =>
        simp only [Pending.failure?, hdeep, hinvoke, if_false, Option.some.injEq] at hlast
        exact .inr ⟨rule, props, cause, hnode, hinvoke, hlast.symm⟩

end PipelineTree
