import PipelineTree.Platform.Steps
import PipelineTree.Tree.Rule
import PipelineTree.Value.Rename

/-!
# Compiler — what a platform provides

A platform compiles roots of one kind into documents, and spells the keys of its documents by a table of
its own.
-/

namespace PipelineTree

variable {ρ : Type}

/-- A platform, for trees with rules in `ρ`. -/
structure Compiler (ρ : Type) where
  id : String
  rootKind : Kind
  extension : String
  renames : RenameTable
  description : String := "CI configuration compiler"
  /-- the document of a root under a depth limit; `none` if there is nothing to write -/
  compile : (limit : Nat) → Primitive ρ → Run (Option Value)

/-- Reports on the nodes that are of none of the accepted kinds. -/
def unacceptedEvents [ExpansionRule ρ] (accepted : List Kind) (context : String)
    (nodes : List (Node ρ)) : List Event :=
  (nodes.filter fun node => !accepted.any fun kind => node.isKind kind).map
    fun node => .unacceptedNode node.kindName context

def documentWith (fields : Mapping) (name : String) (value : Value) : Value :=
  .mapping (fields ++ [(.text name, value)])

end PipelineTree
