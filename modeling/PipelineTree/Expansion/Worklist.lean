import PipelineTree.Error.Run
import PipelineTree.Tree.Rule

/-!
# Worklist — expanding groups and rules into primitives

Expansion replaces groups by their children and custom nodes by what their rules return, until only
primitives are left.  Nodes still to be visited wait on a list, each with its depth and the closest rule
it comes from; a node below the depth limit is an error, so a rule that returns itself cannot run
forever.

The list of pending nodes may grow, but the number of visits still to come (`Node.visits`) is finite
and falls with every visit, because depth is bounded.  That number is only used to see that the loop
ends; it is never computed.
-/

namespace PipelineTree

variable {ρ : Type} [ExpansionRule ρ]

/-! ## How many visits a node takes -/

/-- The sum of some numbers. -/
def total : List Nat → Nat
  | [] => 0
  | n :: ns => n + total ns

theorem total_append (ms ns : List Nat) : total (ms ++ ns) = total ms + total ns := by
  induction ms with
  | nil => simp [total]
  | cons m ms ih => simp [total, ih, Nat.add_assoc]

/-- The number of visits that a node takes when `left` more levels are allowed. -/
def Node.visits : (left : Nat) → Node ρ → Nat
  | 0, _ => 1
  | _ + 1, .primitive .. => 1
  | left + 1, .group children => 1 + total (children.map fun child => child.visits left)
  | left + 1, .custom rule props =>
    match ExpansionRule.invoke rule props with
    | .ok slot => 1 + total (slot.nodes.map fun child => child.visits left)
    | .error _ => 1

theorem Node.visits_pos (left : Nat) (node : Node ρ) : 0 < node.visits left := by
  cases left with
  | zero => simp [Node.visits]
  | succ left =>
    cases node with
    | primitive => simp [Node.visits]
    | group =>
      rw [Node.visits]
      omega
    | custom rule props =>
      rw [Node.visits]
      split <;> omega

/-! ## One visit -/

/-- A node waiting to be visited. -/
structure Pending (ρ : Type) where
  node : Node ρ
  depth : Nat
  /-- the closest rule the node comes from -/
  origin : Option String

/-- What a visit leads to: nodes that are done, and nodes to visit instead. -/
structure Visited (ρ : Type) where
  output : List (Node ρ)
  pending : List (Pending ρ)

namespace Pending

def visits (limit : Nat) (p : Pending ρ) : Nat := p.node.visits (limit + 1 - p.depth)

def visit (limit : Nat) (p : Pending ρ) : Run (Visited ρ) :=
  if limit < p.depth then
    .fail (.depthExceeded limit (p.origin.getD p.node.kindName))
  else
    match p.node with
    | .primitive kind props children => .done ⟨[.primitive kind props children], []⟩
    | .group children => .done ⟨[], children.map (⟨·, p.depth + 1, p.origin⟩)⟩
    | .custom rule props =>
      let name := ExpansionRule.name rule
      let reported := [Event.invokingRule name p.depth]
      match ExpansionRule.invoke rule props with
      | .error cause => ⟨reported, .error (.expansionFailed name cause)⟩
      | .ok slot => ⟨reported, .ok ⟨[], slot.nodes.map (⟨·, p.depth + 1, some name⟩)⟩⟩

private theorem total_visits_map (limit depth : Nat) (origin : Option String)
    (within : depth ≤ limit) (nodes : List (Node ρ)) :
    total ((nodes.map fun child => (⟨child, depth + 1, origin⟩ : Pending ρ)).map (visits limit)) =
      total (nodes.map fun child => child.visits (limit - depth)) := by
  have same : limit + 1 - (depth + 1) = limit - depth := by omega
  simp [List.map_map, Function.comp_def, visits, same]

/-- A visit leaves less to visit. -/
theorem visits_lt (limit : Nat) (p : Pending ρ) {next : Visited ρ}
    (visited : (p.visit limit).result = .ok next) :
    total (next.pending.map (visits limit)) < p.visits limit := by
  unfold visit at visited
  split at visited
  · simp [Run.fail] at visited
  · rename_i within
    obtain ⟨node, depth, origin⟩ := p
    have levels : limit + 1 - depth = (limit - depth) + 1 := by
      simp only [Nat.not_lt] at within; omega
    have bound : depth ≤ limit := by simpa using within
    cases node with
    | primitive kind props children =>
      simp only [Run.done, Except.ok.injEq] at visited
      subst visited
      simpa [visits, total] using Node.visits_pos _ _
    | group children =>
      simp only [Run.done, Except.ok.injEq] at visited
      subst visited
      rw [total_visits_map limit depth origin bound]
      simp only [visits, levels, Node.visits]
      omega
    | custom rule props =>
      simp only at visited
      split at visited
      · simp at visited
      · rename_i slot returned
        simp only [Except.ok.injEq] at visited
        subst visited
        rw [total_visits_map limit depth _ bound]
        simp only [visits, levels, Node.visits, returned]
        omega

end Pending

/-! ## The loop -/

/-- Visits pending nodes from the front of the list until none is left. -/
def expandPending (limit : Nat) (stack : List (Pending ρ))
    (output : Array (Node ρ)) (events : Array Event) : Run (List (Node ρ)) :=
  match stack with
  | [] => ⟨events.toList, .ok output.toList⟩
  | p :: rest =>
    let visit := p.visit limit
    match _visited : visit.result with
    | .error error => ⟨(events ++ visit.events).toList, .error error⟩
    | .ok next => expandPending limit (next.pending ++ rest) (output ++ next.output)
        (events ++ visit.events)
termination_by total (stack.map (Pending.visits limit))
decreasing_by
  have := Pending.visits_lt limit p _visited
  simp only [List.map_append, total_append, List.map_cons, total]
  omega

def expandAll (limit : Nat) (nodes : List (Node ρ)) : Run (List (Node ρ)) :=
  expandPending limit (nodes.map (⟨·, 0, none⟩)) #[] #[]

def Node.expand (limit : Nat) (node : Node ρ) : Run (List (Node ρ)) := expandAll limit [node]

def defaultDepthLimit : Nat := 1000

end PipelineTree
