import PipelineTree.Files.Path

/-!
# Script — what a command does to its surroundings

A script asks for files and directories, changes them and prints; after each action it goes on with the
answer.  A script can be carried out on a machine, or on a `Workspace`, where all of its effects can be
seen.
-/

namespace PipelineTree

/-- Why an action on a file failed. -/
inductive FileFault where
  | notFound
  | exists
  | notDirectory
  | isDirectory
  /-- the file holds bytes that are no text -/
  | notText
  | other (text : String)
  deriving DecidableEq, Repr

def FileFault.text : FileFault → String
  | .notFound => "No such file or directory (os error 2)"
  | .exists => "File exists (os error 17)"
  | .notDirectory => "Not a directory (os error 20)"
  | .isDirectory => "Is a directory (os error 21)"
  | .notText => "stream did not contain valid UTF-8"
  | .other text => text

/-- A file or directory with all that is below it, by name. -/
inductive Branch where
  | file (name : String)
  | directory (name : String) (branches : List Branch)

def Branch.name : Branch → String
  | .file name | .directory name _ => name

def Branch.isDirectory : Branch → Bool
  | .file _ => false
  | .directory .. => true

/-- Where text is printed. -/
inductive Channel where
  | output
  | errors
  deriving DecidableEq, Repr

/-- An action, with the type of its answer. -/
inductive Action : Type → Type where
  /-- the working directory -/
  | location : Action Path
  /-- makes a directory the working directory -/
  | enter (directory : Path) : Action (Except FileFault Unit)
  /-- whether there is something under a path, and whether that is a directory -/
  | isDirectory? (path : Path) : Action (Option Bool)
  /-- what a directory holds, sorted by name and without what is below; hidden names are left out -/
  | list (directory : Path) : Action (List Branch)
  /-- what is below a directory, sorted by name; hidden names are left out -/
  | walk (directory : Path) : Action (List Branch)
  | read (file : Path) : Action (Except FileFault String)
  /-- makes a directory in one that is there -/
  | makeDirectory (directory : Path) : Action (Except FileFault Unit)
  | write (file : Path) (text : String) : Action (Except FileFault Unit)
  | print (channel : Channel) (text : String) : Action Unit
  /-- the time that has passed since some moment, in milliseconds -/
  | clock : Action Nat

/-- Actions in a row, each depending on the answers before. -/
inductive Script (α : Type) : Type 1 where
  | done (value : α)
  | act {β : Type} (action : Action β) (next : β → Script α)

namespace Script

variable {α β γ : Type}

def andThen : Script α → (α → Script β) → Script β
  | .done value, next => next value
  | .act action rest, next => .act action fun answer => (rest answer).andThen next

instance : Monad Script where
  pure := done
  bind := andThen

def perform (action : Action α) : Script α := .act action .done

def forEach (f : α → Script β) : List α → Script (List β)
  | [] => .done []
  | a :: as => do
    let b ← f a
    let bs ← forEach f as
    pure (b :: bs)

def print (channel : Channel) (text : String) : Script Unit := perform (.print channel text)

def printLine (channel : Channel) (text : String) : Script Unit := print channel (text ++ "\n")

/-! ## Laws -/

@[simp] theorem pure_eq (value : α) : (pure value : Script α) = done value := rfl

@[simp] theorem bind_eq (first : Script α) (next : α → Script β) :
    first >>= next = first.andThen next := rfl

end Script

end PipelineTree
