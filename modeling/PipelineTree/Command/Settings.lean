import PipelineTree.Authoring.Reading
import PipelineTree.Expansion.Worklist
import PipelineTree.Files.Inputs
import PipelineTree.Text.Blank
import PipelineTree.Yaml.Printer

/-!
# Settings — the settings file of a directory

A directory may hold settings: where generated documents go, and how deep expansion may go.  What is
given on the command line takes precedence.
-/

namespace PipelineTree

/-- What settings may say. -/
structure Settings where
  outDir : Option Path
  maxDepth : Option Nat
  deriving DecidableEq, Repr

namespace Settings

def none : Settings := ⟨.none, .none⟩

def merge (settings above : Settings) : Settings :=
  ⟨above.outDir.or settings.outDir, above.maxDepth.or settings.maxDepth⟩

def depthLimit (settings : Settings) : Nat := settings.maxDepth.getD defaultDepthLimit

/-! ## Reading and writing -/

def readField (source : Source) (name : String) (draft : Draft) (settings : Settings) :
    Reading Settings :=
  match name with
  | "out_dir" => do
    let text ← Reading.optional source (Reading.text source) draft
    pure { settings with outDir := text.map Path.mk }
  | _ => do
    let maxDepth ← Reading.optional source (Reading.natural source) draft
    pure { settings with maxDepth := maxDepth }

def read (source : Source) (left : Nat) (draft : Draft) : Reading Settings := do
  let (settings, _) ← Reading.record source left ["out_dir", "max_depth"] []
    (fun _ name _ => readField source name) none draft
  pure settings

/-- The settings that a text holds. A blank text says nothing. -/
def ofText (text : String) : Except ReadFault Settings :=
  if (trimBlank text.toList).isEmpty then .ok none
  else
    let source := Yaml.source text
    source.read (read source)

def ofFile (file : Path) : Attempt Settings := do
  match ← Attempt.perform (.read file) with
  | .error fault => throw (.fileRead file.text fault.text)
  | .ok text => Attempt.ofExcept ((ofText text).mapError (.invalidConfig file.text))

def ofDirectory (directory : Path) : Attempt Settings := do
  let present ← Attempt.perform (.isDirectory? directory.settings)
  if present.isSome then ofFile directory.settings else pure none

def value (settings : Settings) : Value :=
  .mapping
    ((settings.outDir.map fun p => (Value.text "out_dir", Value.text p.text)).toList ++
      (settings.maxDepth.map fun n => (Value.text "max_depth", Value.number (.int n))).toList)

end Settings

end PipelineTree
