import PipelineTree.Authoring.Document
import PipelineTree.Files.Path
import PipelineTree.Json.Source
import PipelineTree.Source.Reading
import PipelineTree.Yaml.Source

/-!
# Reading — documents from texts

A document is a record with the macros, which may be missing, and the root.  A macro is a record with
defaults for its parameters, which may be missing, and a body.  The text is YAML or JSON.
-/

namespace PipelineTree

/-- The format of a text. -/
inductive Format where
  | yaml
  | json
  deriving DecidableEq, Repr

/-- The format that a file is in, by its name: JSON if that says so, in small letters or large. -/
def Format.ofPath (path : Path) : Format :=
  if path.extension?.any fun e => e.toLower == "json" then .json else .yaml

def Format.source : Format → String → Source
  | .yaml => Yaml.source
  | .json => Json.source

def Format.error : Format → ReadFault → Error
  | .yaml => .yaml
  | .json => .json

namespace Template

/-- The fields of a macro read so far. -/
structure Fields where
  params : Option Props
  body : Option Value

def readField (source : Source) (left : Nat) (name : String) (place : Place) (draft : Draft)
    (fields : Fields) : Reading Fields :=
  match name with
  | "params" => do
    let params ← Reading.dictionary source left place
      (fun left _ => Reading.value source left false) draft
    pure { fields with params := some params }
  | _ => do
    let body ← Reading.value source left false draft
    pure { fields with body := some body }

def read (source : Source) (left : Nat) (place : Place) (draft : Draft) : Reading Template := do
  let (fields, form) ←
    Reading.record source left ["params", "body"] place (readField source) ⟨none, none⟩ draft
  match fields.body with
  | some body => pure ⟨fields.params.getD [], body⟩
  | none => Reading.refuseMissing source place "body" form

end Template

namespace Document

/-- The fields of a document read so far. -/
structure Fields where
  templates : Option Templates
  root : Option Value

def readField (source : Source) (left : Nat) (name : String) (place : Place) (draft : Draft)
    (fields : Fields) : Reading Fields :=
  match name with
  | "macros" => do
    let templates ← Reading.dictionary source left place (Template.read source) draft
    pure { fields with templates := some templates }
  | _ => do
    let root ← Reading.value source left false draft
    pure { fields with root := some root }

def read (source : Source) (left : Nat) (draft : Draft) : Reading Document := do
  let (fields, form) ←
    Reading.record source left ["macros", "root"] [] (readField source) ⟨none, none⟩ draft
  match fields.root with
  | some root => pure ⟨fields.templates.getD [], root⟩
  | none => Reading.refuseMissing source [] "root" form

def ofText (format : Format) (text : String) : Except Error Document :=
  let source := format.source text
  (source.read (Document.read source)).mapError format.error

def load (format : Format) (text : String) : Except Error (Node TemplateUse) := do
  let document ← ofText format text
  document.tree.mapError Error.ofLoad

end Document

end PipelineTree
