import PipelineTree.Authoring.Tree

/-!
# Document — macros and a root

A document declares macros and has one root.  The root is read as a slot that holds exactly one node.
-/

namespace PipelineTree

/-- The parts of an authored document. -/
structure Document where
  templates : Templates
  root : Value

def Document.tree (document : Document) : Except LoadError (Node TemplateUse) := do
  let slot ← Authoring.readSlot document.templates (.start "root") document.root
  match slot.nodes with
  | [node] => pure node
  | [] => .error (.invalid .emptyRoot)
  | several => .error (.invalid (.severalRoots several.length))

end PipelineTree
