import PipelineTree.Expansion.Worklist

/-!
# Leaves — the steps of a job

A job's leaves are the primitives of one kind among its expanded children, in order.  Children are
expanded one by one; a primitive of another kind is reported and left out.
-/

namespace PipelineTree

variable {ρ : Type} [ExpansionRule ρ]

def foreignEvents (leaf : Kind) (nodes : List (Node ρ)) : List Event :=
  (nodes.filter (!·.isKind leaf)).map fun node => .foreignNode leaf node.kindName

def Node.leaves (limit : Nat) (leaf : Kind) (child : Node ρ) : Run (List (Node ρ)) := do
  let nodes ← child.expand limit
  Run.report (foreignEvents leaf nodes)
  pure (nodes.filter (·.isKind leaf))

def collectLeaves (limit : Nat) (leaf : Kind) (children : List (Node ρ)) : Run (List (Node ρ)) := do
  let leaves ← Run.forEach (·.leaves limit leaf) children
  pure leaves.flatten

end PipelineTree
