import PipelineTree.Files.Path

/-!
# Output — names of generated documents

A document generated from a file is called like the file up to its last dot, then `.generated.` and the
extension of the platform.  Names with that marker are never taken for inputs, and neither is the
settings file.  For native paths, `NativePath.output` is what reads as `Path.output`.
-/

namespace PipelineTree

namespace Path

def generatedMarker : List Char := ".generated.".toList

def settingsName : String := ".pipeweave.yaml"

def occurs (word : List Char) : List Char → Bool
  | [] => word.isPrefixOf []
  | c :: cs => word.isPrefixOf (c :: cs) || occurs word cs

def isGenerated (p : Path) : Bool := p.fileName?.any fun name => occurs generatedMarker name.toList

def isSettings (p : Path) : Bool := p.fileName? == some settingsName

def isAuthored (p : Path) : Bool := !p.isGenerated && !p.isSettings

/-- What a document is called after the stem of its input. -/
def documentName (stem extension : String) : String := stem ++ ".generated." ++ extension

/-- Where a document goes: to a directory, or beside its input. -/
def destination (input : Path) (name : String) (directory : Option Path) : Path :=
  match directory with
  | some directory => directory.join name
  | none => input.withFileName name

/-- Where the document generated from an input goes. -/
def output (input : Path) (extension : String) (directory : Option Path) : Path :=
  input.destination (documentName (input.stem?.getD "") extension) directory

def settings (directory : Path) : Path := directory.join settingsName

theorem occurs_append (word before after : List Char) : occurs word (before ++ word ++ after) := by
  induction before with
  | nil => cases word <;> cases after <;> simp [occurs]
  | cons c cs ih =>
    simp only [List.cons_append, occurs, Bool.or_eq_true]
    exact Or.inr ih

end Path

end PipelineTree
