import PipelineTree.Files.Script
import PipelineTree.Value.Entries

/-!
# Workspace — files in memory

A workspace is a tree of directories and files, a working directory in it, and what has been printed.
Scripts run on it as on a machine without links and without permissions (`Script.run`), on which no time
passes.
-/

namespace PipelineTree

/-- A file, with its text unless its bytes are no text; or a directory with its entries. -/
inductive Entry where
  | file (text : Option String)
  | directory (entries : List (String × Entry))
  deriving Inhabited

/-- A place in a tree: the names that lead to it from the root, the last one first. -/
abbrev Spot := List String

namespace Entry

def isDirectory : Entry → Bool
  | .file _ => false
  | .directory _ => true

def find? (entry : Entry) : List String → Option Entry
  | [] => some entry
  | name :: names =>
    match entry with
    | .file _ => none
    | .directory entries => (entries.lookup name).bind (·.find? names)

/-- Puts an entry under names, if all but the last lead through directories. -/
def put (new : Entry) : (names : List String) → Entry → Entry
  | [], _ => new
  | _ :: _, .file text => .file text
  | name :: names, .directory entries =>
    match entries.lookup name, names with
    | some inner, names => .directory (Entries.insert name (put new names inner) entries)
    | none, [] => .directory (Entries.insert name new entries)
    | none, _ :: _ => .directory entries

/-! ## Looking below -/

def isHidden (name : String) : Bool := name.toList.head? == some '.'

def sorted (branches : List Branch) : List Branch :=
  branches.mergeSort fun a b => a.name ≤ b.name

mutual

def branch (name : String) : Entry → Branch
  | .file _ => .file name
  | .directory entries => .directory name (sorted (branches entries))

def branches : List (String × Entry) → List Branch
  | [] => []
  | (name, entry) :: entries =>
    if isHidden name then branches entries else branch name entry :: branches entries

end

/-- An entry under a name as a branch, without what is below. -/
def stub (name : String) : Entry → Branch
  | .file _ => .file name
  | .directory _ => .directory name []

def descendants : Entry → List Branch
  | .file _ => []
  | .directory entries => sorted (branches entries)

def contents : Entry → List Branch
  | .file _ => []
  | .directory entries =>
    sorted ((entries.filter (!isHidden ·.1)).map fun e => stub e.1 e.2)

end Entry

/-- A tree of files, and the working directory in it. -/
structure Disk where
  root : Entry
  location : Spot
  deriving Inhabited

namespace Disk

def entry? (disk : Disk) (spot : Spot) : Option Entry := disk.root.find? spot.reverse

/-! ## Following paths -/

/-- Follows the segments of a path from a spot. Every step but the first leads out of a directory. -/
def follow (disk : Disk) (spot : Spot) : List Path.Segment → Except FileFault Spot
  | [] => .ok spot
  | segment :: segments =>
    match disk.entry? spot with
    | none => .error .notFound
    | some (.file _) => .error .notDirectory
    | some (.directory entries) =>
      if Path.isIdle segment then follow disk spot segments
      else if segment == ['.', '.'] then follow disk (spot.drop 1) segments
      else
        let name := String.ofList segment
        if Entries.contains name entries then follow disk (name :: spot) segments
        else .error .notFound

def startOf (disk : Disk) (path : Path) : Spot := if path.isAbsolute then [] else disk.location

/-- The spot that a path leads to, if there is something. -/
def resolve (disk : Disk) (path : Path) : Except FileFault Spot :=
  if path.text.isEmpty then .error .notFound
  else disk.follow (disk.startOf path) path.segments

def get (disk : Disk) (path : Path) : Except FileFault Entry := do
  let spot ← disk.resolve path
  match disk.entry? spot with
  | some entry => .ok entry
  | none => .error .notFound

def resolveNew (disk : Disk) (path : Path) : Except FileFault Spot :=
  match path.segments.reverse with
  | [] => .error .notFound
  | last :: before => do
    let spot ← disk.follow (disk.startOf path) before.reverse
    match disk.entry? spot with
    | some (.directory _) => .ok (String.ofList last :: spot)
    | some (.file _) => .error .notDirectory
    | none => .error .notFound

def put (disk : Disk) (spot : Spot) (entry : Entry) : Disk :=
  { disk with root := Entry.put entry spot.reverse disk.root }

/-! ## Actions -/

/-- Whether there is something under a path, and whether that is a directory. -/
def isDirectory? (disk : Disk) (path : Path) : Option Bool :=
  match disk.get path with
  | .ok entry => some entry.isDirectory
  | .error _ => none

def list (disk : Disk) (directory : Path) : List Branch :=
  match disk.get directory with
  | .ok entry => entry.contents
  | .error _ => []

def walk (disk : Disk) (directory : Path) : List Branch :=
  match disk.get directory with
  | .ok entry => entry.descendants
  | .error _ => []

def read (disk : Disk) (file : Path) : Except FileFault String := do
  match ← disk.get file with
  | .file (some text) => .ok text
  | .file none => .error .notText
  | .directory _ => .error .isDirectory

def withoutEnding (path : Path) : Path :=
  ⟨String.ofList (path.text.toList.reverse.dropWhile (· == '/')).reverse⟩

/-- Whether the last segment of a path is a name, so that something may be made there. -/
def endsInName (path : Path) : Bool :=
  match path.segments.getLast? with
  | some segment => !Path.isIdle segment && segment != ['.', '.']
  | none => false

/--
Writes a file, which is made if it is missing.  A path that ends in a separator or in dots stands for a
directory.
-/
def write (disk : Disk) (file : Path) (content : Entry) : Except FileFault Disk := do
  let bare := withoutEnding file
  if endsInName bare then
    let spot ← disk.resolveNew bare
    if bare ≠ file || (disk.entry? spot).any Entry.isDirectory then .error .isDirectory
    else .ok (disk.put spot content)
  else
    let _ ← disk.resolve file
    .error .isDirectory

def makeDirectory (disk : Disk) (directory : Path) : Except FileFault Disk :=
  match disk.resolve directory with
  | .ok _ => .error .exists
  | .error fault =>
    let bare := withoutEnding directory
    if endsInName bare then
      match disk.resolve bare with
      | .ok _ => .error .exists
      | .error _ => do
        let spot ← disk.resolveNew bare
        .ok (disk.put spot (.directory []))
    else .error fault

def enter (disk : Disk) (directory : Path) : Except FileFault Disk := do
  let spot ← disk.resolve directory
  match disk.entry? spot with
  | some (.directory _) => .ok { disk with location := spot }
  | some (.file _) => .error .notDirectory
  | none => .error .notFound

def pathOf (spot : Spot) : Path :=
  ⟨if spot.isEmpty then "/" else String.join (spot.reverse.map ("/" ++ ·))⟩

end Disk

/-- Files in memory, and what has been printed, in order. -/
structure Workspace where
  disk : Disk
  printed : List (Channel × String)
  deriving Inhabited

namespace Workspace

def printedOn (workspace : Workspace) (channel : Channel) : String :=
  String.join ((workspace.printed.filter (·.1 == channel)).map (·.2))

def update (workspace : Workspace) (changed : Except FileFault Disk) :
    Except FileFault Unit × Workspace :=
  match changed with
  | .ok disk => (.ok (), { workspace with disk := disk })
  | .error fault => (.error fault, workspace)

end Workspace

def Action.run {α : Type} (workspace : Workspace) : Action α → α × Workspace
  | .location => (Disk.pathOf workspace.disk.location, workspace)
  | .enter directory => workspace.update (workspace.disk.enter directory)
  | .isDirectory? path => (workspace.disk.isDirectory? path, workspace)
  | .list directory => (workspace.disk.list directory, workspace)
  | .walk directory => (workspace.disk.walk directory, workspace)
  | .read file => (workspace.disk.read file, workspace)
  | .makeDirectory directory => workspace.update (workspace.disk.makeDirectory directory)
  | .write file text => workspace.update (workspace.disk.write file (.file (some text)))
  | .print channel text =>
    ((), { workspace with printed := workspace.printed ++ [(channel, text)] })
  | .clock => (0, workspace)

namespace Script

variable {α β : Type}

def run (workspace : Workspace) : Script α → α × Workspace
  | .done value => (value, workspace)
  | .act action next =>
    let (answer, changed) := action.run workspace
    (next answer).run changed

@[simp] theorem run_done (workspace : Workspace) (value : α) :
    (done value).run workspace = (value, workspace) := rfl

@[simp] theorem run_andThen (workspace : Workspace) (first : Script α) (next : α → Script β) :
    (first.andThen next).run workspace =
      (next (first.run workspace).1).run (first.run workspace).2 := by
  induction first generalizing workspace with
  | done => rfl
  | act action rest ih => simp [andThen, run, ih]

end Script

end PipelineTree
