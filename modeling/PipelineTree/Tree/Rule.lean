import PipelineTree.Error.Basic
import PipelineTree.Tree.Node

/-!
# Rule — what a custom node stands for

A rule is a pure function from the properties of a custom node to a slot, or to an error.
-/

namespace PipelineTree

/-- A type of rules: each has a name and can be invoked with properties. -/
class ExpansionRule (ρ : Type) where
  /-- the name used in messages -/
  name : ρ → String
  /-- what the rule stands for, given the properties of its node -/
  invoke : ρ → Props → Except RuleError (Slot ρ)

def Node.kindName {ρ : Type} [ExpansionRule ρ] : Node ρ → String
  | .primitive kind .. => kind.name
  | .group _ => "group"
  | .custom rule _ => s!"use:{ExpansionRule.name rule}"

end PipelineTree
