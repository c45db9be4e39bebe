import PipelineTree.Expansion.Leaves

/-!
# DepthFirst — expansion as a recursion over the tree

`expandAll` works on a list of pending nodes.  This module gives expansion a second time, as the
recursion one would write down first: `Pending.walk` follows a node and whatever stands for it, depth
first and from left to right, and keeps the order of its visits.

* `Loop` is the graph of the worklist loop, with the nodes it takes off its list one after the other;
* `Refines.walk` says that the loop, with a node in front, does what the walk from this node does;
* `expandAll_eq_walk` is the resulting equation, and `expandAll_refines_walk` the whole comparison.
-/

namespace PipelineTree

variable {ρ : Type} [ExpansionRule ρ]

/-! ## The recursive definition -/

/-- A walk through a tree: the nodes it visits, in order, and what it ends with. -/
structure Walk (ρ : Type) where
  visited : List (Pending ρ)
  result : Except Error (List (Node ρ))

namespace Walk

/-- Walks from left to right, up to the first that fails. -/
def siblings : List (Walk ρ) → Walk ρ
  | [] => ⟨[], .ok []⟩
  | first :: others =>
    match first.result with
    | .error error => ⟨first.visited, .error error⟩
    | .ok nodes =>
      let rest := siblings others
      ⟨first.visited ++ rest.visited, rest.result.map (nodes ++ ·)⟩

/-- A visit, and then a walk. -/
def after (p : Pending ρ) (walk : Walk ρ) : Walk ρ := ⟨p :: walk.visited, walk.result⟩

end Walk

/--
The depth-first expansion of a node.  A primitive stands for itself, a group for its children one level
deeper, and a custom node for what its rule returns one level deeper.
-/
def Pending.walk (limit : Nat) (p : Pending ρ) : Walk ρ :=
  if limit < p.depth then
    ⟨[p], .error (.depthExceeded limit (p.origin.getD p.node.kindName))⟩
  else
    match p.node with
    | .primitive kind props children => ⟨[p], .ok [.primitive kind props children]⟩
    | .group children =>
      .after p (.siblings (children.map fun child => walk limit ⟨child, p.depth + 1, p.origin⟩))
    | .custom rule props =>
      let name := ExpansionRule.name rule
      match ExpansionRule.invoke rule props with
      | .error cause => ⟨[p], .error (.expansionFailed name cause)⟩
      | .ok slot =>
        .after p (.siblings (slot.nodes.map fun child => walk limit ⟨child, p.depth + 1, some name⟩))
termination_by limit + 1 - p.depth

/-- The depth-first expansion of sibling nodes. -/
def Walk.ofNodes (limit : Nat) (nodes : List (Node ρ)) : Walk ρ :=
  .siblings (nodes.map fun node => Pending.walk limit ⟨node, 0, none⟩)

/-- The failure that a node meets when it is visited, if it meets one. -/
def Pending.failure? (limit : Nat) (p : Pending ρ) : Option Error :=
  if limit < p.depth then some (.depthExceeded limit (p.origin.getD p.node.kindName))
  else
    match p.node with
    | .custom rule props =>
      match ExpansionRule.invoke rule props with
      | .error cause => some (.expansionFailed (ExpansionRule.name rule) cause)
      | .ok _ => none
    | _ => none

/-- The report on the invocation of a rule, if a node within the limit is one to invoke a rule for. -/
def Pending.invocation? (limit : Nat) (p : Pending ρ) : Option Event :=
  if limit < p.depth then none
  else
    match p.node with
    | .custom rule _ => some (.invokingRule (ExpansionRule.name rule) p.depth)
    | _ => none

/-! ## The graph of the loop -/

/-- The loop from a state on: the nodes it takes off its list, one after the other, and its run. -/
inductive Loop (limit : Nat) :
    (stack : List (Pending ρ)) → (output : Array (Node ρ)) → (events : Array Event) →
      (visited : List (Pending ρ)) → Run (List (Node ρ)) → Prop where
  | finish (output : Array (Node ρ)) (events : Array Event) :
      Loop limit [] output events [] ⟨events.toList, .ok output.toList⟩
  | fail {p : Pending ρ} {error : Error} (rest : List (Pending ρ)) (output : Array (Node ρ))
      (events : Array Event) :
      (p.visit limit).result = .error error →
        Loop limit (p :: rest) output events [p]
          ⟨(events ++ (p.visit limit).events).toList, .error error⟩
  | step {p : Pending ρ} {next : Visited ρ} {rest visited : List (Pending ρ)}
      {output : Array (Node ρ)} {events : Array Event} {run : Run (List (Node ρ))} :
      (p.visit limit).result = .ok next →
        Loop limit (next.pending ++ rest) (output ++ next.output)
          (events ++ (p.visit limit).events) visited run →
        Loop limit (p :: rest) output events (p :: visited) run

namespace Loop

variable {limit : Nat} {stack visited : List (Pending ρ)} {output : Array (Node ρ)}
  {events : Array Event} {run : Run (List (Node ρ))}

theorem expandPending_eq (h : Loop limit stack output events visited run) :
    expandPending limit stack output events = run := by
  -- Each rule of the graph is one round of the loop.
  induction h with
  | finish output events =>
    rw [expandPending]
  | fail rest output events hfail =>
    rw [expandPending]
    split
    · rename_i error herror
      have : error = _ := Except.error.inj (herror.symm.trans hfail)
      rw [this]
    · rename_i next hnext
      simp [hfail] at hnext
  | step hnext _ ih =>
    rw [expandPending]
    split
    · rename_i error herror
      simp [hnext] at herror
    · rename_i next hnext'
      have : next = _ := Except.ok.inj (hnext'.symm.trans hnext)
      rw [this]
      exact ih

/-- From one state on, the loop makes the same visits whenever it runs. -/
theorem visited_unique {visited' : List (Pending ρ)} {run' : Run (List (Node ρ))}
    (h : Loop limit stack output events visited run)
    (h' : Loop limit stack output events visited' run') : visited' = visited := by
  -- The state settles which rule applies, for a visit either fails or leads to a next state.
  induction h generalizing visited' with
  | finish => cases h'; rfl
  | fail rest output events hfail =>
    cases h' with
    | fail => rfl
    | step hnext _ => simp [hfail] at hnext
  | step hnext _ ih =>
    cases h' with
    | fail _ _ _ hfail => simp [hnext] at hfail
    | step hnext' hloop =>
      have : _ = _ := Except.ok.inj (hnext'.symm.trans hnext)
      subst this
      rw [ih hloop]

end Loop

/-! ## The loop refines the recursion -/

/-- What the visits to some nodes report. -/
def reports (limit : Nat) (visited : List (Pending ρ)) : List Event :=
  visited.flatMap fun p => (p.visit limit).events

/-- The loop, with some nodes in front, does what a walk does and then goes on with the others. -/
def Refines (limit : Nat) (front : List (Pending ρ)) (walk : Walk ρ) : Prop :=
  ∀ (rest : List (Pending ρ)) (output : Array (Node ρ)) (events : Array Event),
    match walk.result with
    | .error error =>
      Loop limit (front ++ rest) output events walk.visited
        ⟨events.toList ++ reports limit walk.visited, .error error⟩
    | .ok nodes =>
      ∀ {visited : List (Pending ρ)} {run : Run (List (Node ρ))},
        Loop limit rest (output ++ nodes) (events ++ reports limit walk.visited) visited run →
          Loop limit (front ++ rest) output events (walk.visited ++ visited) run

private theorem appendList_assoc {α : Type} (first : Array α) (second third : List α) :
    first ++ second ++ third = first ++ (second ++ third) := by
  apply Array.ext'
  simp

namespace Refines

variable {limit : Nat}

/-- A visit that fails is a walk of its own. -/
theorem of_fail {p : Pending ρ} {error : Error} (hfail : (p.visit limit).result = .error error) :
    Refines limit [p] ⟨[p], .error error⟩ := by
  intro rest output events
  have hloop := Loop.fail rest output events hfail
  simpa [reports] using hloop

/-- A visit, and then the walk of the nodes it puts in front. -/
theorem of_step {p : Pending ρ} {pending : List (Pending ρ)} {walk : Walk ρ}
    (hstep : (p.visit limit).result = .ok ⟨[], pending⟩) (hwalk : Refines limit pending walk) :
    Refines limit [p] (.after p walk) := by
  intro rest output events
  have hnext := hwalk rest (output ++ ([] : List (Node ρ))) (events ++ (p.visit limit).events)
  rcases walk with ⟨visited, result⟩
  cases result with
  | error error =>
    have hloop : Loop limit (p :: rest) output events _ _ := .step hstep hnext
    simpa [Walk.after, reports] using hloop
  | ok nodes =>
    intro visited' run hrest
    have hloop : Loop limit (pending ++ rest) (output ++ ([] : List (Node ρ)))
        (events ++ (p.visit limit).events) (visited ++ visited') run := by
      refine hnext ?_
      simpa [Walk.after, reports, appendList_assoc] using hrest
    exact .step hstep hloop

theorem nil : Refines limit ([] : List (Pending ρ)) (.siblings []) := by
  intro rest output events visited run hrest
  simpa [Walk.siblings, reports] using hrest

theorem cons {p : Pending ρ} {front : List (Pending ρ)} {walk : Walk ρ} {walks : List (Walk ρ)}
    (hfirst : Refines limit [p] walk) (hothers : Refines limit front (.siblings walks)) :
    Refines limit (p :: front) (.siblings (walk :: walks)) := by
  intro rest output events
  have hp := hfirst (front ++ rest) output events
  rcases walk with ⟨visited, result⟩
  cases result with
  | error error =>
    -- The others are never taken off the list.
    simpa [Walk.siblings] using hp
  | ok nodes =>
    have hfront := hothers rest (output ++ nodes) (events ++ reports limit visited)
    cases hresult : (Walk.siblings walks).result with
    | error error =>
      simp only [hresult] at hfront
      have hloop := hp hfront
      simpa [Walk.siblings, hresult, Except.map, reports] using hloop
    | ok others =>
      simp only [hresult] at hfront
      simp only [Walk.siblings, hresult, Except.map]
      intro visited' run hrest
      rw [List.append_assoc]
      refine hp (hfront ?_)
      simpa [appendList_assoc, reports] using hrest

/-- Siblings refine walk by walk. -/
theorem siblings {front : List (Pending ρ)}
    (hfront : ∀ p ∈ front, Refines limit [p] (p.walk limit)) :
    Refines limit front (.siblings (front.map (Pending.walk limit))) := by
  induction front with
  | nil => exact nil
  | cons p front ih =>
    refine cons (hfront p (by simp)) (ih ?_)
    intro q hq
    exact hfront q (by simp [hq])

/-- The loop refines the recursion from every node, whatever is still pending behind it. -/
theorem walk (limit : Nat) (p : Pending ρ) : Refines limit [p] (p.walk limit) := by
  -- The levels that are left decrease; the nodes that a rule returns are not part of the tree.
  induction hlevels : limit + 1 - p.depth using Nat.strongRecOn generalizing p with
  | ind levels ih =>
    rcases p with ⟨node, depth, origin⟩
    rw [Pending.walk]
    by_cases hdeep : limit < depth
    · rw [if_pos hdeep]
      exact of_fail (by simp [Pending.visit, hdeep])
    · rw [if_neg hdeep]
      have hbelow : ∀ (name : Option String) (children : List (Node ρ)),
          Refines limit (children.map (⟨·, depth + 1, name⟩))
            (.siblings (children.map fun child => Pending.walk limit ⟨child, depth + 1, name⟩)) := by
        intro name children
        have hchildren : Refines limit (children.map (⟨·, depth + 1, name⟩))
            (.siblings ((children.map (⟨·, depth + 1, name⟩)).map (Pending.walk limit))) := by
          refine siblings ?_
          intro q hq
          rcases List.mem_map.1 hq with ⟨child, -, rfl⟩
          exact ih _ (by simp only at hlevels ⊢; omega) _ rfl
        simpa [List.map_map, Function.comp_def] using hchildren
      cases node with
      | primitive kind props children =>
        intro rest output events visited run hrest
        have hvisit : (Pending.visit limit ⟨.primitive kind props children, depth, origin⟩).result =
            .ok ⟨[.primitive kind props children], []⟩ := by
          simp [Pending.visit, hdeep]
        exact .step hvisit (by simpa [reports] using hrest)
      | group children =>
        exact of_step (by simp [Pending.visit, hdeep]) (hbelow origin children)
      | custom rule props =>
        cases hinvoke : ExpansionRule.invoke rule props with
        | error cause =>
          simp only [hinvoke]
          exact of_fail (by simp [Pending.visit, hdeep, hinvoke])
        | ok slot =>
          simp only [hinvoke]
          exact of_step (by simp [Pending.visit, hdeep, hinvoke]) (hbelow _ slot.nodes)

end Refines

/-! ## What a visit reports, and how it fails -/

theorem Pending.events_visit (limit : Nat) (p : Pending ρ) :
    (p.visit limit).events = (p.invocation? limit).toList := by
  rcases p with ⟨node, depth, origin⟩
  by_cases hdeep : limit < depth
  · simp [visit, invocation?, hdeep, Run.fail]
  · cases node with
    | primitive => simp [visit, invocation?, hdeep, Run.done]
    | group => simp [visit, invocation?, hdeep, Run.done]
    | custom rule props =>
      cases hinvoke : ExpansionRule.invoke rule props <;>
        simp [visit, invocation?, hdeep, hinvoke]

theorem reports_eq (limit : Nat) (visited : List (Pending ρ)) :
    reports limit visited = visited.filterMap (Pending.invocation? limit) := by
  induction visited with
  | nil => rfl
  | cons p visited ih =>
    simp only [reports, List.flatMap_cons, Pending.events_visit] at ih ⊢
    rw [ih, List.filterMap_cons]
    cases p.invocation? limit <;> rfl

theorem Pending.result_visit_eq_error_iff (limit : Nat) (p : Pending ρ) (error : Error) :
    (p.visit limit).result = .error error ↔ p.failure? limit = some error := by
  rcases p with ⟨node, depth, origin⟩
  by_cases hdeep : limit < depth
  · simp [visit, failure?, hdeep]
  · cases node with
    | primitive => simp [visit, failure?, hdeep]
    | group => simp [visit, failure?, hdeep]
    | custom rule props =>
      cases hinvoke : ExpansionRule.invoke rule props <;>
        simp [visit, failure?, hdeep, hinvoke]

theorem Pending.failure?_of_ok {limit : Nat} {p : Pending ρ} {next : Visited ρ}
    (hvisit : (p.visit limit).result = .ok next) : p.failure? limit = none := by
  cases hfailure : p.failure? limit with
  | none => rfl
  | some error =>
    have := (p.result_visit_eq_error_iff limit error).2 hfailure
    simp [hvisit] at this

/-- Of the visited nodes only the last one fails, and it fails as the whole does. -/
def StopsAtFailure (limit : Nat) (visited : List (Pending ρ))
    (result : Except Error (List (Node ρ))) : Prop :=
  match result with
  | .ok _ => ∀ p ∈ visited, p.failure? limit = none
  | .error error =>
    ∃ before last, visited = before ++ [last] ∧ last.failure? limit = some error ∧
      ∀ p ∈ before, p.failure? limit = none

theorem Loop.stopsAtFailure {limit : Nat} {stack visited : List (Pending ρ)}
    {output : Array (Node ρ)} {events : Array Event} {run : Run (List (Node ρ))}
    (h : Loop limit stack output events visited run) :
    StopsAtFailure limit visited run.result := by
  induction h with
  | finish => simp [StopsAtFailure]
  | @fail p error _ _ _ hfail =>
    -- The loop stops here, so the visit that fails is the last one.
    refine ⟨[], p, rfl, ?_, by simp⟩
    exact (p.result_visit_eq_error_iff limit error).1 hfail
  | @step p next rest visited output events run hnext _ ih =>
    have hp := Pending.failure?_of_ok hnext
    rcases run with ⟨_, result⟩
    cases result with
    | ok nodes =>
      intro q hq
      rcases List.mem_cons.1 hq with rfl | hq
      · exact hp
      · exact ih q hq
    | error error =>
      rcases ih with ⟨before, last, rfl, hlast, hbefore⟩
      refine ⟨p :: before, last, rfl, hlast, ?_⟩
      intro q hq
      rcases List.mem_cons.1 hq with rfl | hq
      · exact hp
      · exact hbefore q hq

/-! ## Whole expansions -/

theorem loop_walk (limit : Nat) (nodes : List (Node ρ)) :
    Loop limit (nodes.map (⟨·, 0, none⟩)) #[] #[] (Walk.ofNodes limit nodes).visited
      ⟨reports limit (Walk.ofNodes limit nodes).visited, (Walk.ofNodes limit nodes).result⟩ := by
  have hrefines : Refines limit (nodes.map (⟨·, 0, none⟩)) (Walk.ofNodes limit nodes) := by
    have hsiblings : Refines limit (nodes.map (⟨·, 0, none⟩))
        (.siblings ((nodes.map (⟨·, 0, none⟩)).map (Pending.walk limit))) :=
      Refines.siblings fun p _ => Refines.walk limit p
    simpa [Walk.ofNodes, List.map_map, Function.comp_def] using hsiblings
  -- All nodes are in front, and nothing waits behind them.
  have hloop := hrefines [] #[] #[]
  cases hresult : (Walk.ofNodes limit nodes).result with
  | error error =>
    simp only [hresult] at hloop
    simpa using hloop
  | ok output =>
    simp only [hresult] at hloop
    simpa using hloop (Loop.finish _ _)

theorem expandAll_eq_walk (limit : Nat) (nodes : List (Node ρ)) :
    expandAll limit nodes =
      ⟨(Walk.ofNodes limit nodes).visited.filterMap (Pending.invocation? limit),
        (Walk.ofNodes limit nodes).result⟩ := by
  rw [← reports_eq]
  exact (loop_walk limit nodes).expandPending_eq

/--
The worklist loop ends, after the visits of the depth-first recursion and with its result.  Each visit
to a custom node within the limit is one invocation of its rule, and a failure is the first one on the way.
-/
theorem expandAll_refines_walk (limit : Nat) (nodes : List (Node ρ)) :
    (∀ visited run, Loop limit (nodes.map (⟨·, 0, none⟩)) #[] #[] visited run ↔
      visited = (Walk.ofNodes limit nodes).visited ∧ run = expandAll limit nodes) ∧
    (expandAll limit nodes).result = (Walk.ofNodes limit nodes).result ∧
    (expandAll limit nodes).events =
      (Walk.ofNodes limit nodes).visited.filterMap (Pending.invocation? limit) ∧
    StopsAtFailure limit (Walk.ofNodes limit nodes).visited (Walk.ofNodes limit nodes).result := by
  have hloop := loop_walk limit nodes
  rw [reports_eq, ← expandAll_eq_walk] at hloop
  refine ⟨?_, by rw [expandAll_eq_walk], by rw [expandAll_eq_walk], ?_⟩
  · intro visited run
    constructor
    · intro h
      exact ⟨hloop.visited_unique h, h.expandPending_eq.symm⟩
    · rintro ⟨rfl, rfl⟩
      exact hloop
  · have hstops := hloop.stopsAtFailure
    rwa [expandAll_eq_walk] at hstops

end PipelineTree
