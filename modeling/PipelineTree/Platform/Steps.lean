import PipelineTree.Error.Run
import PipelineTree.Tree.Node

/-!
# Steps — the rules every step obeys

A step has exactly one of two behaviours: it calls an action, or it runs a script.  Steps that are
switched off are left out before they are checked.  Positions count every step of the unit, also those
that are switched off.
-/

namespace PipelineTree

/-- The step rules of a platform. -/
structure StepRules where
  /-- the property that names an action -/
  action : String
  /-- the property that holds a script -/
  script : String
  /-- the properties that name a step in messages, the best first -/
  labels : List String

namespace StepRules

variable {ρ : Type}

def check (rules : StepRules) (unit : String) (position : Nat) (props : Props) :
    Except Error Unit :=
  let entity := s!"step {props.label rules.labels position} in {unit}"
  match props.sets rules.action, props.sets rules.script with
  | true, true =>
    .error (.validation entity
      s!"sets both '{rules.action}' and '{rules.script}'; a step takes exactly one of them")
  | false, false =>
    .error (.validation entity s!"must set either '{rules.action}' or '{rules.script}'")
  | _, _ => .ok ()

/-- The steps that are on, checked, from a position on. -/
def enabledFrom (rules : StepRules) (unit : String) :
    (position : Nat) → List (Primitive ρ) → Run (List (Primitive ρ))
  | _, [] => .done []
  | position, step :: steps =>
    if step.props.disabled then do
      Run.report [.disabledStep unit position]
      enabledFrom rules unit (position + 1) steps
    else do
      Run.ofExcept (rules.check unit position step.props)
      let kept ← enabledFrom rules unit (position + 1) steps
      pure (step :: kept)

/-- The steps of a unit that are on, checked, in order. -/
def enabled (rules : StepRules) (unit : String) (steps : List (Node ρ)) : Run (List (Primitive ρ)) :=
  rules.enabledFrom unit 1 (steps.filterMap Node.primitive?)

end StepRules

end PipelineTree
