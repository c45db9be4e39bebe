import PipelineTree.Authoring.Tree
import PipelineTree.Proofs.Expansion.Results

/-!
# Fixed point — expanding once is enough

`Node.StandFor` says what a list of nodes stands for, without depths and limits: a primitive stands for
itself as it is, a group for what its children stand for, and a custom node for what the nodes returned by
its rule stand for.  An expansion that succeeds yields just that, so nothing but primitives is left, and
expanding again changes nothing, under whatever limit and among whatever other primitives
(`expandAll_settles`).
-/

namespace PipelineTree

variable {ρ : Type} [ExpansionRule ρ]

/-! ## What nodes stand for -/

/-- The primitives that siblings stand for, in order. -/
inductive Node.StandFor : List (Node ρ) → List (Node ρ) → Prop where
  | nil : StandFor [] []
  | primitive (kind : Kind) (props : Props) (children : List (Node ρ)) {nodes rest : List (Node ρ)} :
      StandFor nodes rest →
        StandFor (.primitive kind props children :: nodes) (.primitive kind props children :: rest)
  | group {children nodes first rest : List (Node ρ)} :
      StandFor children first → StandFor nodes rest →
        StandFor (.group children :: nodes) (first ++ rest)
  | custom {rule : ρ} {props : Props} {slot : Slot ρ} {nodes first rest : List (Node ρ)} :
      ExpansionRule.invoke rule props = .ok slot →
        StandFor slot.nodes first → StandFor nodes rest →
        StandFor (.custom rule props :: nodes) (first ++ rest)

theorem Node.StandFor.primitives {nodes yield : List (Node ρ)} (h : StandFor nodes yield) :
    ∀ node ∈ yield, node.primitive?.isSome = true := by
  induction h with
  | nil => simp
  | primitive kind props children _ ih => exact List.forall_mem_cons.2 ⟨rfl, ih⟩
  | group _ _ ihfirst ihrest => exact List.forall_mem_append.2 ⟨ihfirst, ihrest⟩
  | custom _ _ _ ihfirst ihrest => exact List.forall_mem_append.2 ⟨ihfirst, ihrest⟩

/-! ## What expansion yields -/

theorem standFor_of_yieldAll {limit depth : Nat} {origin : Option String} {nodes yield : List (Node ρ)}
    (h : yieldAll limit depth origin nodes = .ok yield) : Node.StandFor nodes yield := by
  -- The nodes that a rule returns are not part of the tree, so the levels that are left decrease; on one
  -- level the induction is on the siblings.
  induction hlevels : limit + 1 - depth using Nat.strongRecOn
    generalizing depth origin nodes yield with
  | ind levels ih =>
    have hbelow : ∀ {origin : Option String} {children first : List (Node ρ)}, ¬limit < depth →
        yieldAll limit (depth + 1) origin children = .ok first → Node.StandFor children first := by
      intro origin children first hlevel hfirst
      exact ih _ (by omega) hfirst rfl
    induction nodes generalizing yield with
    | nil =>
      cases h
      exact .nil
    | cons node nodes ihnodes =>
      rw [yieldAll_cons, Run.bind_eq_ok_iff] at h
      rcases h with ⟨first, hfirst, hrest⟩
      rcases Run.bind_eq_ok_iff.1 hrest with ⟨rest, hothers, hyield⟩
      cases hyield
      have hstand := ihnodes hothers
      by_cases hlevel : limit < depth
      · rw [Pending.result_walk_deep hlevel] at hfirst
        cases hfirst
      · cases node with
        | primitive kind props children =>
          rw [Pending.result_walk_primitive hlevel] at hfirst
          cases hfirst
          exact .primitive kind props children hstand
        | group children =>
          rw [Pending.result_walk_group hlevel] at hfirst
          exact .group (hbelow hlevel hfirst) hstand
        | custom rule props =>
          cases hinvoke : ExpansionRule.invoke rule props with
          | error cause =>
            rw [Pending.result_walk_custom_error hlevel origin hinvoke] at hfirst
            cases hfirst
          | ok slot =>
            rw [Pending.result_walk_custom_ok hlevel origin hinvoke] at hfirst
            exact .custom hinvoke (hbelow hlevel hfirst) hstand

/--
An expansion that succeeds yields primitives as they were found, and leaves nothing to expand: under every
limit, zero included, and with any primitives around them, the same nodes come back in the same order, and
no rule is invoked.
-/
theorem expandAll_settles {limit : Nat} {nodes yield : List (Node ρ)}
    (h : (expandAll limit nodes).result = .ok yield) :
    Node.StandFor nodes yield ∧ (∀ node ∈ yield, node.primitive?.isSome = true) ∧
    ∀ (again : Nat) (before after : List (Node ρ)),
      (∀ node ∈ before ++ after, node.primitive?.isSome = true) →
        expandAll again (before ++ yield ++ after) = .done (before ++ yield ++ after) := by
  rw [result_expandAll] at h
  have hstand := standFor_of_yieldAll h
  refine ⟨hstand, hstand.primitives, ?_⟩
  intro again before after haround
  rcases List.forall_mem_append.1 haround with ⟨hbefore, hafter⟩
  have hall : ∀ node ∈ before ++ yield ++ after, node.primitive?.isSome = true :=
    List.forall_mem_append.2 ⟨List.forall_mem_append.2 ⟨hbefore, hstand.primitives⟩, hafter⟩
  exact expandAll_primitives again hall

/-- A macro that stands for a step and, in a group, for one that is given to it. -/
def checkTemplates : Templates :=
  [("check",
    { params := []
      body := .sequence
        [ .mapping [(.text "github.step", .mapping [(.text "run", .text "cargo fmt")])],
          .mapping [(.text "group", .text "$\x7b\x7b params.last \x7d\x7d")] ] })]

/-- A job, and a group with a use of the macro. -/
def checkedNodes : List (Node TemplateUse) :=
  [ .primitive .githubJob [("id", .text "lint")] [.group []],
    .group
      [.custom ⟨"check", checkTemplates⟩
        [("last", .mapping [(.text "github.step", .mapping [(.text "run", .text "cargo doc")])])]] ]

/-- What they stand for. The group below the job is left alone. -/
def checkedYield : List (Node TemplateUse) :=
  [ .primitive .githubJob [("id", .text "lint")] [.group []],
    .primitive .githubStep [("run", .text "cargo fmt")] [],
    .primitive .githubStep [("run", .text "cargo doc")] [] ]

/-- A step that is filled in takes the place of the placeholder. -/
theorem substitute_check (step : Value) :
    Substitution.substitute [("last", step)]
        (.sequence
          [ .mapping [(.text "github.step", .mapping [(.text "run", .text "cargo fmt")])],
            .mapping [(.text "group", .text "$\x7b\x7b params.last \x7d\x7d")] ]) =
      .ok (.sequence
        [ .mapping [(.text "github.step", .mapping [(.text "run", .text "cargo fmt")])],
          .mapping [(.text "group", step)] ]) := by
  have hlast : Substitution.substituteText [("last", step)] "$\x7b\x7b params.last \x7d\x7d" = .ok step := by
    have hwhole : Placeholder.whole? "$\x7b\x7b params.last \x7d\x7d".toList = some "last" := by decide +kernel
    rw [Substitution.substituteText, hwhole]
    rfl
  have hplain : Substitution.substituteText [("last", step)] "cargo fmt" = .ok (.text "cargo fmt") := by
    have hwhole : Placeholder.whole? "cargo fmt".toList = none := by decide +kernel
    rw [Substitution.substituteText, hwhole, Substitution.interpolate_of_not_mem _ (by decide)]
    rfl
  simp (disch := decide) only [Substitution.substitute, Substitution.substituteItems, Substitution.substituteEntries,
    Substitution.substituteKey, Substitution.interpolate_of_not_mem, hlast, hplain]
  rfl

/-- What the macro returns: a step, and a group with the step that is given to it. -/
def checkSlot : Slot TemplateUse :=
  .many
    [ .one (.primitive .githubStep [("run", .text "cargo fmt")] []),
      .one (.group [.primitive .githubStep [("run", .text "cargo doc")] []]) ]

theorem invoke_check :
    ExpansionRule.invoke (TemplateUse.mk "check" checkTemplates)
      [("last", .mapping [(.text "github.step", .mapping [(.text "run", .text "cargo doc")])])] =
        .ok checkSlot := by
  simp only [ExpansionRule.invoke, TemplateUse.invoke, checkTemplates, List.lookup_cons_self, Entries.overlay,
    Entries.insert, substitute_check]
  rfl

theorem result_checkedNodes : (expandAll 3 checkedNodes).result = .ok checkedYield := by
  have hcustom := Pending.result_walk_custom_ok (show ¬3 < 1 by decide) none invoke_check
  rw [result_expandAll, checkedNodes, yieldAll_cons, yieldAll_singleton, Pending.result_walk_group (by decide),
    yieldAll_singleton, hcustom]
  with_unfolding_all rfl

theorem expandAll_settles_checked :
    (expandAll 3 checkedNodes).result = .ok checkedYield ∧
      (∀ node ∈ checkedYield.take 1 ++ checkedYield, node.primitive?.isSome = true) ∧
      expandAll 0 (checkedYield.take 1 ++ checkedYield ++ checkedYield) =
        .done (checkedYield.take 1 ++ checkedYield ++ checkedYield) := by
  have haround : ∀ node ∈ checkedYield.take 1 ++ checkedYield, node.primitive?.isSome = true := by
    decide
  have hsettles := (expandAll_settles result_checkedNodes).2.2
  exact ⟨result_checkedNodes, haround, hsettles 0 (checkedYield.take 1) checkedYield haround⟩

end PipelineTree
