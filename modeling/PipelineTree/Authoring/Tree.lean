import PipelineTree.Template.Substitution
import PipelineTree.Tree.Rule

/-!
# Tree — authored values as trees

A node is written as a mapping with one key: a kind with its properties (`children` among them), or
`group` with a slot; or as a mapping with `use`, and perhaps `with`, for a macro.  Sequences splice; null
and booleans stand for nothing.

A macro is a template: defaults for its parameters, and a body.  Using it fills the parameters into the
body and reads the result as a slot, so a use stays a custom node until it is expanded.
-/

namespace PipelineTree

/-- A declared macro: defaults of its parameters, and its body. -/
structure Template where
  params : Props
  body : Value

abbrev Templates := List (String × Template)

/-- The use of a macro: its name, and the macros it is looked up in. -/
structure TemplateUse where
  name : String
  templates : Templates

namespace Authoring

def fault {α : Type} (place : Address) (f : Fault) : Except LoadError α :=
  .error (.invalid (.misplaced place f))

/-- The entries of a mapping as properties; a name written twice keeps its place and takes the last value. -/
def propsOf (place : Address) (entries : Mapping) : Except LoadError Props := do
  let named ← entries.mapM fun (k, v) =>
    match k.text? with
    | some name => .ok (name, v)
    | none => fault place .propertyNotText
  pure (Entries.ofList named)

/-- The first key beside `use` and `with` that is a text. -/
def strayKey? (entries : Mapping) : Option String :=
  (entries.filterMap (·.1.text?)).find? fun name => name != "use" && name != "with"

def readUse (templates : Templates) (place : Address) (entries : Mapping) :
    Except LoadError (Node TemplateUse) :=
  match strayKey? entries with
  | some name => fault place (.strayKey name)
  | none =>
    match (entries.lookup (.text "use")).bind Value.text? with
    | none => fault place .useNotText
    | some name =>
      if Entries.contains name templates then
        match entries.lookup (.text "with") with
        | none | some .null => .ok (.custom ⟨name, templates⟩ [])
        | some (.mapping bindings) => do
          let props ← propsOf (place.key "with") bindings
          pure (.custom ⟨name, templates⟩ props)
        | some other => fault place (.withNotMapping other.sort)
      else .error (.unknownMacro name)

mutual

def readSlot (templates : Templates) (place : Address) : Value → Except LoadError (Slot TemplateUse)
  | .null | .bool _ => .ok .empty
  | .sequence items => .many <$> readItems templates place 0 items
  | .mapping entries =>
    if Entries.contains (.text "use") entries then .one <$> readUse templates place entries
    else .one <$> readNode templates place entries
  | other => fault place (.notSlot other.sort)

def readItems (templates : Templates) (place : Address) (position : Nat) :
    List Value → Except LoadError (List (Slot TemplateUse))
  | [] => .ok []
  | v :: vs => do
    let slot ← readSlot templates (place.item position) v
    let rest ← readItems templates place (position + 1) vs
    pure (slot :: rest)

def readNode (templates : Templates) (place : Address) :
    List (Value × Value) → Except LoadError (Node TemplateUse)
  | [(k, body)] =>
    match k.text? with
    | none => fault place .kindNotText
    | some name =>
      let place := place.key name
      if name == "group" then do
        let slot ← readSlot templates place body
        pure (.group slot.nodes)
      else
        match Kind.ofName? name with
        | none => fault place (.unknownKind name (Kind.all.map Kind.name))
        | some kind => readPrimitive templates place kind body
  | _ => fault place .notSingleKey

def readPrimitive (templates : Templates) (place : Address) (kind : Kind) :
    Value → Except LoadError (Node TemplateUse)
  | .null => .ok (.primitive kind [] [])
  | .mapping fields => do
    let props ← propsOf place fields
    let children ← (readChildren templates (place.key "children") fields).getD (.ok .empty)
    pure (.primitive kind (Entries.erase "children" props) children.nodes)
  | other => fault place (.notProperties other.sort)

/-- Reads the last entry named `children`, if there is one. -/
def readChildren (templates : Templates) (place : Address) :
    List (Value × Value) → Option (Except LoadError (Slot TemplateUse))
  | [] => none
  | (k, v) :: fields =>
    match readChildren templates place fields with
    | some read => some read
    | none => if k.text? == some "children" then some (readSlot templates place v) else none

end

end Authoring

def TemplateUse.invoke (use : TemplateUse) (props : Props) :
    Except RuleError (Slot TemplateUse) :=
  match use.templates.lookup use.name with
  | none => .error (.undeclaredMacro use.name)
  | some template => do
    let body ← Substitution.substitute (Entries.overlay template.params props) template.body
    match Authoring.readSlot use.templates (.start s!"macro '{use.name}'") body with
    | .ok slot => pure slot
    | .error cause => .error (.load cause)

instance : ExpansionRule TemplateUse where
  name := TemplateUse.name
  invoke := TemplateUse.invoke

end PipelineTree
