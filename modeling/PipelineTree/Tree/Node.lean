import PipelineTree.Tree.Kind
import PipelineTree.Value.Props

/-!
# Node — authored trees and what may stand for a child

A tree has three sorts of nodes: primitives, which a platform understands; groups, which stand for
their children; and custom nodes, which stand for whatever their rule returns.  The type `ρ` of rules
is left open.

A `Slot` is anything that may stand where children are expected; it flattens to a list of nodes, in
order.
-/

namespace PipelineTree

/-- A node of an authored tree with rules in `ρ`. -/
inductive Node (ρ : Type) where
  | primitive (kind : Kind) (props : Props) (children : List (Node ρ))
  | group (children : List (Node ρ))
  | custom (rule : ρ) (props : Props)
  deriving Inhabited

/-- What may stand for children: nothing, a node, or slots in sequence. -/
inductive Slot (ρ : Type) where
  | empty
  | one (node : Node ρ)
  | many (slots : List (Slot ρ))
  deriving Inhabited

/-- The parts of a primitive node. -/
structure Primitive (ρ : Type) where
  kind : Kind
  props : Props
  children : List (Node ρ)

variable {ρ σ : Type}

namespace Node

def primitive? : Node ρ → Option (Primitive ρ)
  | .primitive kind props children => some ⟨kind, props, children⟩
  | _ => none

def kind? : Node ρ → Option Kind
  | .primitive kind .. => some kind
  | _ => none

def isKind (kind : Kind) (node : Node ρ) : Bool := node.kind? == some kind

mutual

def map (f : ρ → σ) : Node ρ → Node σ
  | .primitive kind props children => .primitive kind props (mapAll f children)
  | .group children => .group (mapAll f children)
  | .custom rule props => .custom (f rule) props

def mapAll (f : ρ → σ) : List (Node ρ) → List (Node σ)
  | [] => []
  | n :: ns => map f n :: mapAll f ns

end

end Node

def Primitive.ofKind (kind : Kind) (nodes : List (Node ρ)) : List (Primitive ρ) :=
  (nodes.filterMap Node.primitive?).filter (·.kind == kind)

namespace Slot

mutual

def nodes : Slot ρ → List (Node ρ)
  | .empty => []
  | .one node => [node]
  | .many slots => nodesAll slots

def nodesAll : List (Slot ρ) → List (Node ρ)
  | [] => []
  | s :: ss => nodes s ++ nodesAll ss

end

mutual

def isEmpty : Slot ρ → Bool
  | .empty => true
  | .one _ => false
  | .many slots => isEmptyAll slots

def isEmptyAll : List (Slot ρ) → Bool
  | [] => true
  | s :: ss => isEmpty s && isEmptyAll ss

end

def ofNodes (ns : List (Node ρ)) : Slot ρ := .many (ns.map .one)

def ofOption : Option (Slot ρ) → Slot ρ
  | some s => s
  | none => .empty

def ofBool : Bool → Slot ρ := fun _ => .empty

def when (condition : Bool) (slot : Unit → Slot ρ) : Slot ρ :=
  if condition then slot () else .empty

mutual

def map (f : ρ → σ) : Slot ρ → Slot σ
  | .empty => .empty
  | .one node => .one (node.map f)
  | .many slots => .many (mapAll f slots)

def mapAll (f : ρ → σ) : List (Slot ρ) → List (Slot σ)
  | [] => []
  | s :: ss => map f s :: mapAll f ss

end

end Slot

end PipelineTree
