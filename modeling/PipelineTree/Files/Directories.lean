import PipelineTree.Files.Script

/-!
# Directories — made with all that are missing on the way

A directory is made where it is; if the one around it is missing, that one is made first.  A directory
that is there already is as good as one that was made.
-/

namespace PipelineTree

namespace Directories

/-- What to answer when a directory was not made: all is well if it is there. -/
def unlessThere (directory : Path) (fault : FileFault) : Script (Except FileFault Unit) := do
  let isDirectory ← Script.perform (.isDirectory? directory)
  pure (if isDirectory == some true then .ok () else .error fault)

/-- Makes a directory in one that should be there by now. -/
def makeInner (directory : Path) : Script (Except FileFault Unit) := do
  match ← Script.perform (.makeDirectory directory) with
  | .ok () => pure (.ok ())
  | .error fault => unlessThere directory fault

def makeWithin (directory : Path) : (levels : Nat) → Script (Except FileFault Unit)
  | 0 => pure (.error (.other "failed to create whole tree"))
  | levels + 1 =>
    if directory.text.isEmpty then pure (.ok ())
    else do
      match ← Script.perform (.makeDirectory directory) with
      | .ok () => pure (.ok ())
      | .error .notFound =>
        match directory.parent? with
        | none => pure (.error (.other "failed to create whole tree"))
        | some parent => do
          match ← makeWithin parent levels with
          | .ok () => makeInner directory
          | .error fault => pure (.error fault)
      | .error fault => unlessThere directory fault

/-- Makes a directory and all that are missing around it; there are fewer of them than characters. -/
def make (directory : Path) : Script (Except FileFault Unit) :=
  makeWithin directory (directory.text.length + 1)

/-- The working directory is never made. -/
theorem make_empty : make ⟨""⟩ = pure (.ok ()) := by
  simp [make, makeWithin]

end Directories

end PipelineTree
