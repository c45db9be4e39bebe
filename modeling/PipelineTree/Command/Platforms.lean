import PipelineTree.Files.Inputs
import PipelineTree.Json.Printer
import PipelineTree.Authoring.Tree
import PipelineTree.Platform.Registry

/-!
# Platforms — the list of platforms

The platforms are listed as a table, with descriptions on request, or as JSON records.
-/

namespace PipelineTree

/-- How a list is printed. -/
inductive ListFormat where
  | text
  | json
  deriving DecidableEq, Repr

namespace Platforms

def padded (width : Nat) (text : String) : String :=
  text ++ String.ofList (List.replicate (width - text.length) ' ')

def row (info : PlatformInfo) : String :=
  s!"  {padded 8 info.id} root {padded 18 info.rootKind} → *.generated.{info.extension}"

def rows (verbose : Bool) (info : PlatformInfo) : List String :=
  row info :: if verbose then [String.ofList (List.replicate 11 ' ') ++ info.description] else []

def table (verbose : Bool) (infos : List PlatformInfo) : List String :=
  "Supported platforms" :: String.ofList (List.replicate 40 '═') :: infos.flatMap (rows verbose)

def record (info : PlatformInfo) : List (String × String) :=
  [ ("id", info.id), ("root_kind", info.rootKind), ("extension", info.extension),
    ("description", info.description) ]

def infos : List PlatformInfo := (Registry.builtin : Registry TemplateUse).info

def run (format : ListFormat) (verbose : Bool) : Script Unit := do
  let lines := match format with
    | .text => table verbose infos
    | .json => [Json.records (infos.map record)]
  let _ ← Script.forEach (Script.printLine .output) lines
  pure ()

end Platforms

end PipelineTree
