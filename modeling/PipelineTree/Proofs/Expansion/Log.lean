import PipelineTree.Proofs.Expansion.Results

/-!
# Log — what runs report beside traces

The log of a run is what it reports, without the traces.  `Run.Yields` says at once what a run ends with
and what it logs on its way, with one law for each way to put runs together.  Expansion only reports the
invocation of rules, which are traces, so it logs nothing; collecting the leaves of a unit logs one
warning for each node that is no leaf (`yields_collectLeaves`).
-/

namespace PipelineTree

namespace Run

variable {α β : Type}

/-- What a run reports, without the traces. -/
def log (run : Run α) : List Event := run.events.filter (·.level != .trace)

/-- A run that ends with a value, and what it logs on its way. -/
structure Yields (run : Run α) (value : α) (logged : List Event) : Prop where
  result : run.result = .ok value
  log : run.log = logged

/-! ## Runs put together -/

theorem yields_done_iff {value last : α} {logged : List Event} :
    (done value).Yields last logged ↔ value = last ∧ logged = [] := by
  constructor
  · rintro ⟨hresult, hlog⟩
    exact ⟨Except.ok.inj hresult, hlog.symm⟩
  · rintro ⟨rfl, rfl⟩
    exact ⟨rfl, rfl⟩

theorem yields_ofExcept_iff {result : Except Error α} {last : α} {logged : List Event} :
    (ofExcept result).Yields last logged ↔ result = .ok last ∧ logged = [] := by
  constructor
  · rintro ⟨hresult, hlog⟩
    exact ⟨hresult, hlog.symm⟩
  · rintro ⟨hresult, rfl⟩
    exact ⟨hresult, rfl⟩

theorem yields_report_iff {events : List Event} {last : Unit} {logged : List Event} :
    (report events).Yields last logged ↔ logged = events.filter (·.level != .trace) := by
  constructor
  · rintro ⟨-, hlog⟩
    exact hlog.symm
  · rintro rfl
    exact ⟨rfl, rfl⟩

theorem yields_andThen_iff {first : Run α} {next : α → Run β} {last : β} {logged : List Event} :
    (first.andThen next).Yields last logged ↔
      ∃ value front back, first.Yields value front ∧ (next value).Yields last back ∧
        logged = front ++ back := by
  rcases first with ⟨events, result⟩
  cases result with
  | error error =>
    constructor
    · rintro ⟨hresult, -⟩
      cases hresult
    · rintro ⟨_, _, _, ⟨hresult, -⟩, -⟩
      cases hresult
  | ok value =>
    constructor
    · rintro ⟨hresult, rfl⟩
      refine ⟨value, _, _, ⟨rfl, rfl⟩, ⟨hresult, rfl⟩, ?_⟩
      exact List.filter_append _ _
    · rintro ⟨_, _, _, ⟨⟨⟩, rfl⟩, ⟨hresult, rfl⟩, rfl⟩
      exact ⟨hresult, List.filter_append _ _⟩

end Run

/-! ## Expansion -/

variable {ρ : Type} [ExpansionRule ρ]

theorem log_expandAll (limit : Nat) (nodes : List (Node ρ)) : (expandAll limit nodes).log = [] := by
  rw [Run.log, List.filter_eq_nil_iff]
  intro event hevent
  simp [level_of_mem_events hevent]

theorem yields_expandAll_iff {limit : Nat} {children nodes : List (Node ρ)} {logged : List Event} :
    (expandAll limit children).Yields nodes logged ↔
      (expandAll limit children).result = .ok nodes ∧ logged = [] := by
  constructor
  · rintro ⟨hresult, hlog⟩
    exact ⟨hresult, hlog.symm.trans (log_expandAll limit children)⟩
  · rintro ⟨hresult, rfl⟩
    exact ⟨hresult, log_expandAll limit children⟩

/-! ## Leaves -/

theorem foreignEvents_append (leaf : Kind) (front back : List (Node ρ)) :
    foreignEvents leaf (front ++ back) = foreignEvents leaf front ++ foreignEvents leaf back := by
  rw [foreignEvents, List.filter_append, List.map_append]
  rfl

theorem log_foreignEvents (leaf : Kind) (nodes : List (Node ρ)) :
    (foreignEvents leaf nodes).filter (·.level != .trace) = foreignEvents leaf nodes := by
  rw [List.filter_eq_self]
  intro event hevent
  rcases List.mem_map.1 hevent with ⟨node, -, rfl⟩
  rfl

theorem yields_leaves_iff {limit : Nat} {leaf : Kind} {child : Node ρ} {leaves : List (Node ρ)}
    {logged : List Event} :
    (child.leaves limit leaf).Yields leaves logged ↔
      ∃ nodes, (Pending.walk limit ⟨child, 0, none⟩).result = .ok nodes ∧
        leaves = nodes.filter (·.isKind leaf) ∧ logged = foreignEvents leaf nodes := by
  simp only [Node.leaves, Node.expand, Run.bind_eq, Run.pure_eq, Run.yields_andThen_iff,
    yields_expandAll_iff, Run.yields_report_iff, Run.yields_done_iff, log_foreignEvents]
  rw [← Node.expand, result_expand]
  constructor
  · rintro ⟨nodes, _, _, ⟨hnodes, rfl⟩, ⟨_, _, _, rfl, ⟨rfl, rfl⟩, rfl⟩, rfl⟩
    exact ⟨nodes, hnodes, rfl, by simp⟩
  · rintro ⟨nodes, hnodes, rfl, rfl⟩
    exact ⟨nodes, _, _, ⟨hnodes, rfl⟩, ⟨(), _, _, rfl, ⟨rfl, rfl⟩, rfl⟩, by simp⟩

/-- The children of a unit, one by one, log what all of them together do. -/
theorem yields_forEach_leaves {limit : Nat} {leaf : Kind} {children : List (Node ρ)}
    {outputs : List (List (Node ρ))} {logged : List Event} :
    (Run.forEach (·.leaves limit leaf) children).Yields outputs logged →
      ∃ nodes, yieldAll limit 0 none children = .ok nodes ∧
        outputs.flatten = nodes.filter (·.isKind leaf) ∧ logged = foreignEvents leaf nodes := by
  induction children generalizing outputs logged with
  | nil =>
    intro h
    rcases Run.yields_done_iff.1 h with ⟨rfl, rfl⟩
    exact ⟨[], rfl, rfl, rfl⟩
  | cons child children ih =>
    intro h
    simp only [Run.forEach, Run.bind_eq, Run.pure_eq, Run.yields_andThen_iff, Run.yields_done_iff,
      yields_leaves_iff] at h
    rcases h with
      ⟨_, _, _, ⟨first, hfirst, rfl, rfl⟩, ⟨rest, _, _, hrest, ⟨rfl, rfl⟩, rfl⟩, rfl⟩
    rcases ih hrest with ⟨others, hothers, hleaves, rfl⟩
    refine ⟨first ++ others, ?_, ?_, ?_⟩
    · rw [yieldAll_cons, hfirst, hothers]
      rfl
    · rw [List.flatten_cons, hleaves, List.filter_append]
    · rw [List.append_nil, foreignEvents_append]

theorem yields_collectLeaves {limit : Nat} {leaf : Kind} {children leaves : List (Node ρ)}
    {logged : List Event} (h : (collectLeaves limit leaf children).Yields leaves logged) :
    ∃ nodes, (expandAll limit children).result = .ok nodes ∧
      leaves = nodes.filter (·.isKind leaf) ∧ logged = foreignEvents leaf nodes := by
  simp only [collectLeaves, Run.bind_eq, Run.pure_eq, Run.yields_andThen_iff,
    Run.yields_done_iff] at h
  rcases h with ⟨outputs, _, _, houtputs, ⟨rfl, rfl⟩, rfl⟩
  rcases yields_forEach_leaves houtputs with ⟨nodes, hnodes, hleaves, rfl⟩
  exact ⟨nodes, by rw [result_expandAll, hnodes], hleaves, by rw [List.append_nil]⟩

end PipelineTree
