import PipelineTree.Value.Basic

/-!
# Props — the properties of a node

Named values in written order.  A property that is null counts as absent wherever a property is read
by name, so that an author can switch one off.
-/

namespace PipelineTree

abbrev Props := List (String × Value)

namespace Props

def value? (props : Props) (name : String) : Option Value :=
  (props.lookup name).filter (!·.isNull)

def text? (props : Props) (name : String) : Option String :=
  (props.value? name).bind Value.text?

def sets (props : Props) (name : String) : Bool := (props.value? name).isSome

/-- Whether the properties switch their node off: `disabled` is true, and not under a tag. -/
def disabled (props : Props) : Bool :=
  match props.value? "disabled" with
  | some (.bool true) => true
  | _ => false

/-- The first property set among some names, as a quoted label; else the position. -/
def label (props : Props) (names : List String) (position : Nat) : String :=
  match names.findSome? props.text? with
  | some name => s!"'{name}'"
  | none => s!"#{position}"

/-- The listed properties that are set, in the order of the list, as entries of a mapping. -/
def select (props : Props) (names : List String) : Mapping :=
  names.filterMap fun name => (props.value? name).map fun v => (.text name, v)

end Props

end PipelineTree
