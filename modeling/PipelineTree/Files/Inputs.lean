import PipelineTree.Error.Basic
import PipelineTree.Files.Output
import PipelineTree.Files.Search

/-!
# Inputs — the files that patterns name

Patterns are resolved against a base directory.  What is found is sorted and free of duplicates, and
holds neither generated documents nor the settings file.  A pattern that finds nothing is an error.
-/

namespace PipelineTree

abbrev Attempt (α : Type) := ExceptT Error Script α

def Attempt.perform {α : Type} (action : Action α) : Attempt α := ExceptT.lift (Script.perform action)

def Attempt.ofExcept {α : Type} (result : Except Error α) : Attempt α := ExceptT.mk (.done result)

namespace Inputs

/-- Puts a path into a sorted list, unless one is there that is equal by its components. -/
def insert (path : Path) : List Path → List Path
  | [] => [path]
  | p :: ps =>
    match path.compare p with
    | .lt => path :: p :: ps
    | .eq => p :: ps
    | .gt => p :: insert path ps

/-- Puts paths into a sorted list, the first one first. -/
def insertAll (paths sorted : List Path) : List Path := paths.foldl (fun ps p => insert p ps) sorted

/-- The whole text of a pattern. The base is taken as it is, wildcards and all. -/
def fullPattern (base : Path) (pattern : String) : String :=
  if (Path.mk pattern).isAbsolute then pattern else (base.join pattern).text

/-- Whether a path is an input: a file that is neither generated nor the settings. -/
def isInput (path : Path) : Script Bool := do
  let isDirectory ← Script.perform (.isDirectory? path)
  pure (isDirectory == some false && path.isAuthored)

def keepInputs : List Path → Script (List Path)
  | [] => .done []
  | path :: paths => do
    let kept ← isInput path
    let rest ← keepInputs paths
    pure (if kept then path :: rest else rest)

def ofPattern (base : Path) (pattern : String) : Attempt (List Path) := do
  match Search.ofText? (fullPattern base pattern) with
  | none => throw (.globPattern pattern)
  | some search =>
    let found ← ExceptT.lift search.run
    let inputs ← ExceptT.lift (keepInputs found)
    if inputs.isEmpty then throw (.noInputFiles pattern) else pure inputs

/-- Adds the inputs that patterns name to a sorted list. -/
def addAll (base : Path) (sorted : List Path) : List String → Attempt (List Path)
  | [] => pure sorted
  | pattern :: patterns => do
    let inputs ← ofPattern base pattern
    addAll base (insertAll inputs sorted) patterns

def resolve (patterns : List String) (base : Path) : Attempt (List Path) := addAll base [] patterns

end Inputs

end PipelineTree
