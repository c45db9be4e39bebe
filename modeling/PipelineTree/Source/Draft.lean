import PipelineTree.Error.Basic
import PipelineTree.Value.Basic

/-!
# Draft — a text's structure, before its meaning

A draft is what the grammar of a text format gives: scalars, sequences, mappings and references to
anchored parts.  What the scalars mean, and whether the whole is a document, is decided afterwards
(`Reading`).  A text may break off: then the collections that were open are marked as incomplete, and
whatever is wrong in front of the break is noticed before the break is.
-/

namespace PipelineTree

/-- How a scalar is written. -/
inductive ScalarForm where
  | plain
  | quoted
  | literal
  | folded
  deriving DecidableEq, Repr

/-- The structure of a text. The parts of a mapping are keys and values in turn. -/
inductive Draft where
  /-- a value whose meaning is settled by its spelling -/
  | atom (value : Value)
  | scalar (tag : Option String) (form : ScalarForm) (text : String)
  | alias (id : Nat)
  | sequence (tag : Option String) (items : List Draft) (complete : Bool)
  | mapping (tag : Option String) (parts : List Draft) (complete : Bool)
  deriving Inhabited

/-- What a text format lets documents do. -/
structure Dialect where
  /-- how deep collections may nest -/
  depthLimit : Nat
  /-- whether the fields of a record may be written as a sequence -/
  positional : Bool
  /-- whether faults are reported with their place -/
  placed : Bool
  deriving Repr

/-- A text as far as its grammar goes. -/
structure Source where
  dialect : Dialect
  /-- what the text holds, unless it breaks off before -/
  root : Option Draft
  /-- the anchored parts -/
  anchors : List (Nat × Draft)
  /-- how many scalars and references there are, and beginnings and ends of collections -/
  size : Nat
  /-- what is wrong after what was read -/
  fault : Option String

end PipelineTree
