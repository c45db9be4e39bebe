import PipelineTree.Authoring.Tree
import PipelineTree.Proofs.Platform.DepthLimit

/-!
# Disabling — steps that are off, and trees without them

A step that is switched off is as good as absent.  `Node.Thinned` relates siblings with what is left of
them when steps that are off are deleted from the children of jobs.  A tree and what is left of it expand
alike outside of jobs, and in a job the same steps count (`simulation_thinned`), so they are compiled alike
(`compile_thinned`).

Two things keep the deleted steps apart from absent ones.  They count for the positions by which messages
name steps without a label, hence errors are only the same up to positions; and one of them may be the only
node beyond the depth limit, hence a failure at the limit is excused.
-/

namespace PipelineTree

/-! ## Errors without positions -/

/-- One error, or one complaint about a step that a message names by its position, at two positions. -/
inductive Error.SameButPosition : Error → Error → Prop where
  | same (error : Error) : SameButPosition error error
  | step (position other : Nat) (unit message : String) :
      SameButPosition (.validation s!"step #{position} in {unit}" message)
        (.validation s!"step #{other} in {unit}" message)

/-- The comparison that excuses failures at the depth limit and overlooks the positions of steps. -/
abbrev Comparison.upToPosition : Comparison :=
  .upTo Error.TooDeep Error.SameButPosition .same

theorem AgreeUpTo.of_tooDeep {α β : Type} {R : α → β → Prop} (limit : Nat) (rule : String)
    (y : Except Error β) :
    Comparison.upToPosition.Holds R (.error (.depthExceeded limit rule)) y :=
  AgreeUpTo.of_excused ⟨limit, rule, rfl⟩ y

theorem StepRules.check_position (rules : StepRules) (unit : String) (position other : Nat)
    (props : Props) :
    Comparison.upToPosition.Holds Eq (rules.check unit position props)
      (rules.check unit other props) := by
  cases hlabel : rules.labels.findSome? props.text? with
  | some name =>
    have hsame : rules.check unit position props = rules.check unit other props := by
      simp only [check, Props.label, hlabel]
    rw [hsame]
    exact Comparison.of_eq _ _
  | none =>
    have hentity : ∀ n : Nat, s!"step {props.label rules.labels n} in {unit}" =
        s!"step #{n} in {unit}" := by
      intro n
      simp only [Props.label, hlabel, toString, ← String.append_assoc]
      rfl
    simp only [check, hentity]
    cases props.sets rules.action <;> cases props.sets rules.script
    · exact .inr (.step position other unit _)
    · exact Comparison.ok _ rfl
    · exact Comparison.ok _ rfl
    · exact .inr (.step position other unit _)

/-! ## Trees without some of the steps that are off -/

/--
Siblings, and what is left of them when steps that are off are deleted from the children of jobs, directly
or inside groups there, at any place below.  The flag says whether the siblings themselves are children of
a job.
-/
inductive Node.Thinned {ρ : Type} : (inJob : Bool) → List (Node ρ) → List (Node ρ) → Prop where
  | nil {inJob : Bool} : Thinned inJob [] []
  | drop {kind : Kind} {props : Props} (children : List (Node ρ)) {nodes nodes' : List (Node ρ)} :
      kind.role = .step → props.disabled = true → Thinned true nodes nodes' →
        Thinned true (.primitive kind props children :: nodes) nodes'
  | primitive {inJob : Bool} (kind : Kind) (props : Props)
      {children children' nodes nodes' : List (Node ρ)} :
      Thinned (decide (kind.role = .job)) children children' → Thinned inJob nodes nodes' →
        Thinned inJob (.primitive kind props children :: nodes)
          (.primitive kind props children' :: nodes')
  | group {inJob : Bool} {children children' nodes nodes' : List (Node ρ)} :
      Thinned inJob children children' → Thinned inJob nodes nodes' →
        Thinned inJob (.group children :: nodes) (.group children' :: nodes')
  | custom {inJob : Bool} (rule : ρ) (props : Props) {nodes nodes' : List (Node ρ)} :
      Thinned inJob nodes nodes' →
        Thinned inJob (.custom rule props :: nodes) (.custom rule props :: nodes')

/-- A primitive, and what is left of it when steps that are off are deleted below it. -/
structure Primitive.Thinned {ρ : Type} (p q : Primitive ρ) : Prop where
  kind : p.kind = q.kind
  props : p.props = q.props
  children : Node.Thinned (decide (p.kind.role = .job)) p.children q.children

namespace Node.Thinned

variable {ρ : Type} {inJob : Bool}

theorem refl (inJob : Bool) : ∀ nodes : List (Node ρ), Thinned inJob nodes nodes
  | [] => .nil
  | .primitive kind props children :: nodes => .primitive kind props (refl _ children) (refl _ nodes)
  | .group children :: nodes => .group (refl _ children) (refl _ nodes)
  | .custom rule props :: nodes => .custom rule props (refl _ nodes)

theorem append {front front' back back' : List (Node ρ)} (hfront : Thinned inJob front front')
    (hback : Thinned inJob back back') : Thinned inJob (front ++ back) (front' ++ back') := by
  induction hfront with
  | nil => exact hback
  | drop children hstep hdisabled _ ih => exact .drop children hstep hdisabled (ih hback)
  | primitive kind props hchildren _ _ ih => exact .primitive kind props hchildren (ih hback)
  | group hchildren _ _ ih => exact .group hchildren (ih hback)
  | custom rule props _ ih => exact .custom rule props (ih hback)

/-- Where no step may be deleted, nodes are left one by one. -/
theorem forall₂_matches {nodes nodes' : List (Node ρ)} (h : Thinned false nodes nodes') :
    List.Forall₂ (Node.Matches Primitive.Thinned) nodes nodes' := by
  generalize hflag : false = inJob at h
  induction h with
  | nil => exact .nil
  | drop => cases hflag
  | primitive kind props hchildren _ _ ih => exact .cons (.some ⟨rfl, rfl, hchildren⟩) (ih hflag)
  | group _ _ _ ih => exact .cons .none (ih hflag)
  | custom _ _ _ ih => exact .cons .none (ih hflag)

/-! ## Expansion -/

variable [ExpansionRule ρ]

theorem yieldAll_cons {limit depth : Nat} {origin : Option String} {node node' : Node ρ}
    {nodes nodes' : List (Node ρ)}
    (hnode : ¬limit < depth → Comparison.upToPosition.Holds (Thinned inJob)
      (Pending.walk limit ⟨node, depth, origin⟩).result
      (Pending.walk limit ⟨node', depth, origin⟩).result)
    (hnodes : Comparison.upToPosition.Holds (Thinned inJob) (yieldAll limit depth origin nodes)
      (yieldAll limit depth origin nodes')) :
    Comparison.upToPosition.Holds (Thinned inJob) (yieldAll limit depth origin (node :: nodes))
      (yieldAll limit depth origin (node' :: nodes')) := by
  rw [PipelineTree.yieldAll_cons, PipelineTree.yieldAll_cons]
  by_cases hdeep : limit < depth
  · rw [Pending.result_walk_deep hdeep]
    exact AgreeUpTo.of_tooDeep _ _ _
  · refine Comparison.bind _ (hnode hdeep) ?_
    intro first first' hfirst
    exact Comparison.bind _ hnodes fun _ _ hothers => Comparison.ok _ (hfirst.append hothers)

/-- A step that is off yields itself, unless it is too deep, and may be missing from the other side. -/
theorem yieldAll_drop {limit depth : Nat} {origin : Option String} {kind : Kind} {props : Props}
    (children : List (Node ρ)) {nodes nodes' : List (Node ρ)} (hstep : kind.role = .step)
    (hdisabled : props.disabled = true)
    (hnodes : Comparison.upToPosition.Holds (Thinned true) (yieldAll limit depth origin nodes)
      (yieldAll limit depth origin nodes')) :
    Comparison.upToPosition.Holds (Thinned true)
      (yieldAll limit depth origin (.primitive kind props children :: nodes))
      (yieldAll limit depth origin nodes') := by
  rw [PipelineTree.yieldAll_cons]
  by_cases hdeep : limit < depth
  · rw [Pending.result_walk_deep hdeep]
    exact AgreeUpTo.of_tooDeep _ _ _
  · rw [Pending.result_walk_primitive hdeep, Run.ok_bind,
      ← bind_pure (yieldAll limit depth origin nodes')]
    refine Comparison.bind _ hnodes ?_
    intro others others' hothers
    exact Comparison.ok _ (.drop children hstep hdisabled hothers)

/-- Thinned siblings yield thinned nodes. -/
theorem yieldAll {nodes nodes' : List (Node ρ)} (h : Thinned inJob nodes nodes')
    (limit depth : Nat) (origin : Option String) :
    Comparison.upToPosition.Holds (Thinned inJob) (yieldAll limit depth origin nodes)
      (yieldAll limit depth origin nodes') := by
  induction h generalizing depth origin with
  | nil => exact Comparison.ok _ .nil
  | drop children hstep hdisabled _ ih => exact yieldAll_drop children hstep hdisabled (ih depth origin)
  | primitive kind props hchildren _ _ ih =>
    refine yieldAll_cons (fun hlevel => ?_) (ih depth origin)
    rw [Pending.result_walk_primitive hlevel, Pending.result_walk_primitive hlevel]
    exact Comparison.ok _ (.primitive kind props hchildren .nil)
  | group _ _ ihchildren ih =>
    refine yieldAll_cons (fun hlevel => ?_) (ih depth origin)
    rw [Pending.result_walk_group hlevel, Pending.result_walk_group hlevel]
    exact ihchildren (depth + 1) origin
  | custom rule props _ ih =>
    -- What a rule returns is the same on both sides, and nothing is deleted from it.
    refine yieldAll_cons (fun _ => ?_) (ih depth origin)
    refine Comparison.mono _ (Comparison.of_eq _ _) ?_
    rintro yield _ rfl
    exact refl _ yield

theorem expandAll {nodes nodes' : List (Node ρ)} (h : Thinned inJob nodes nodes') (limit : Nat) :
    Comparison.upToPosition.Holds (Thinned inJob) (expandAll limit nodes).result
      (expandAll limit nodes').result := by
  rw [result_expandAll, result_expandAll]
  exact h.yieldAll limit 0 none

/-! ## Steps -/

omit [ExpansionRule ρ] in
/-- The steps that count are the same, whatever positions they have. -/
theorem enabledFrom {nodes nodes' : List (Node ρ)} (h : Thinned inJob nodes nodes')
    (rules : StepRules) (leaf : Kind) (unit : String) (position other : Nat) :
    Comparison.upToPosition.Holds (List.Forall₂ (Primitive.Alike Primitive.Thinned leaf))
      (rules.enabledFrom unit position (Primitive.ofKind leaf nodes)).result
      (rules.enabledFrom unit other (Primitive.ofKind leaf nodes')).result := by
  induction h generalizing position other with
  | nil => exact Comparison.ok _ .nil
  | @drop kind props children nodes nodes' _ hdisabled _ ih =>
    rw [Primitive.ofKind_cons_primitive]
    split
    · rw [StepRules.result_enabledFrom_cons, if_pos hdisabled]
      exact ih (position + 1) other
    · exact ih position other
  | @primitive inJob kind props children children' nodes nodes' hchildren _ _ ih =>
    rw [Primitive.ofKind_cons_primitive, Primitive.ofKind_cons_primitive]
    split
    · rename_i hkind
      rw [StepRules.result_enabledFrom_cons, StepRules.result_enabledFrom_cons]
      simp only
      split
      · exact ih (position + 1) (other + 1)
      · refine Comparison.bind_eq _ (rules.check_position unit position other props) ?_
        intro _
        refine Comparison.bind _ (ih (position + 1) (other + 1)) ?_
        intro kept kept' hkept
        exact Comparison.ok _ (.cons ⟨hkind, ⟨rfl, rfl, hchildren⟩⟩ hkept)
    · exact ih position other
  | group _ _ _ ih => exact ih position other
  | custom _ _ _ ih => exact ih position other

end Node.Thinned

/-! ## Compiling -/

variable {ρ : Type} [ExpansionRule ρ]

/-- Platforms cannot tell a tree from what is left of it. -/
theorem simulation_thinned (limit : Nat) :
    UnitSimulation Comparison.upToPosition limit limit (@Primitive.Thinned ρ) where
  kind h := h.kind
  agree := by
    intro p q h name _
    rw [h.props]
  expand := by
    intro p q h hrole
    have hchildren := h.children
    rw [decide_eq_false hrole] at hchildren
    exact Comparison.mono _ (hchildren.expandAll limit) fun _ _ hnodes => hnodes.forall₂_matches
  unit := by
    intro p q h hrole rules leaf name _
    have hchildren := h.children
    rw [decide_eq_true hrole] at hchildren
    refine Comparison.bind _ (hchildren.expandAll limit) ?_
    intro nodes nodes' hnodes
    exact hnodes.enabledFrom rules leaf name 1 1

/--
A step that is off is as good as absent from its job.  A root of a built-in platform, and what is left of
it when such steps are deleted from the children of jobs, compile to the same document, or to none; or both
fail with the same error but for the position of the step; unless the deeper of the two trees, the one with
the steps, meets the depth limit.
-/
theorem compile_thinned {compiler : Compiler ρ} (hcompiler : compiler ∈ Registry.builtin)
    (limit : Nat) {p q : Primitive ρ} (hkind : p.kind = compiler.rootKind) (h : p.Thinned q) :
    FailsAtDepth (compiler.compile limit p).result ∨
      (∃ document, (compiler.compile limit p).result = .ok document ∧
        (compiler.compile limit q).result = .ok document) ∨
      ∃ error other, (compiler.compile limit p).result = .error error ∧
        (compiler.compile limit q).result = .error other ∧ error.SameButPosition other := by
  have hagree : AgreeUpTo Error.TooDeep Error.SameButPosition Eq (compiler.compile limit p).result
      (compiler.compile limit q).result :=
    (simulation_thinned limit).compile hcompiler ⟨hkind, h⟩
  exact hagree.endings

/-- A workflow with one job that calls another workflow, and one job in a group. -/
def callAndTest (call test : List (Node TemplateUse)) : Primitive TemplateUse :=
  ⟨.githubWorkflow, [("name", .text "CI")],
    [ .primitive .githubJob [("id", .text "publish"), ("uses", .text "./publish.yml")] call,
      .group [.primitive .githubJob [("id", .text "test")] test] ]⟩

/-- A step that is off and has no behaviour. -/
def idleOff : Node TemplateUse := .primitive .githubStep [("disabled", .bool true)] []

/-- A step that is off and has both behaviours. -/
def brokenOff : Node TemplateUse :=
  .primitive .githubStep
    [("name", .text "Lint"), ("uses", .text "lint@v1"), ("run", .text "lint"), ("disabled", .bool true)] []

/-- A step that has no behaviour, although it is not off. -/
def idleOn : Node TemplateUse := .primitive .githubStep [("env", .mapping [])] []

theorem thinned_callAndTest :
    (callAndTest [brokenOff] [.group [brokenOff, idleOff], idleOn]).Thinned
      (callAndTest [] [.group [], idleOn]) where
  kind := rfl
  props := rfl
  children := by
    have hcall : Node.Thinned true [brokenOff] [] := .drop [] rfl rfl .nil
    have hgroup : Node.Thinned true [brokenOff, idleOff] [] :=
      .drop [] rfl rfl (.drop [] rfl rfl .nil)
    have htest : Node.Thinned true [.group [brokenOff, idleOff], idleOn] [.group [], idleOn] :=
      .group hgroup (.refl true [idleOn])
    exact .primitive _ _ hcall (.group (.primitive _ _ htest .nil) .nil)

/-- With the steps that are off, the one that is not off is the third of its job. -/
theorem compile_callAndTest :
    (Github.compiler.compile 2
      (callAndTest [brokenOff] [.group [brokenOff, idleOff], idleOn])).result =
      .error (.validation "step #3 in job 'test'" "must set either 'uses' or 'run'") := by
  with_unfolding_all rfl

theorem compile_thinned_callAndTest :
    (Github.compiler : Compiler TemplateUse) ∈ Registry.builtin ∧
      (callAndTest [brokenOff] [.group [brokenOff, idleOff], idleOn]).kind = .githubWorkflow ∧
      (callAndTest [brokenOff] [.group [brokenOff, idleOff], idleOn]).Thinned
        (callAndTest [] [.group [], idleOn]) ∧
      ∃ other, (Github.compiler.compile 2 (callAndTest [] [.group [], idleOn])).result = .error other ∧
        Error.SameButPosition
          (.validation "step #3 in job 'test'" "must set either 'uses' or 'run'") other := by
  have hcompiler : (Github.compiler : Compiler TemplateUse) ∈ Registry.builtin := by
    simp [Registry.builtin]
  refine ⟨hcompiler, rfl, thinned_callAndTest, ?_⟩
  have hendings := compile_thinned hcompiler 2 rfl thinned_callAndTest
  rw [compile_callAndTest] at hendings
  rcases hendings with hdeep | ⟨document, hdocument, -⟩ | ⟨error, other, herror, hother, hsame⟩
  · exact absurd hdeep not_failsAtDepth_of_validation
  · cases hdocument
  · cases herror
    exact ⟨other, hother, hsame⟩

/-- A step that is off may be all that lies beyond the limit. -/
example :
    (Github.compiler.compile 1 (callAndTest [.group [.group [idleOff]]] [])).result =
        .error (.depthExceeded 1 "github.step") ∧
      (Github.compiler.compile 1 (callAndTest [.group [.group []]] [])).result.isOk = true := by
  constructor
  · with_unfolding_all rfl
  · with_unfolding_all rfl

end PipelineTree
