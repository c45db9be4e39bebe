import PipelineTree.Command.Program

/-!
# Main — the program on a machine

Scripts are carried out on the files of the machine, in a working directory that is kept beside them;
what they print goes to the two channels of the process.
-/

namespace PipelineTree

namespace Machine

def place (here path : Path) : String := (here.join path.text).text

def faultOf : IO.Error → FileFault
  | .noFileOrDirectory .. => .notFound
  | .alreadyExists .. => .exists
  | .inappropriateType _ code _ => if code == 20 then .notDirectory else .isDirectory
  | error => .other (toString error)

/-- Carries out something that may fail, for a path that names something. -/
def attempt {α : Type} (path : Path) (action : IO α) : IO (Except FileFault α) := do
  if path.text.isEmpty then pure (.error .notFound)
  else
    try
      let result ← action
      pure (.ok result)
    catch error => pure (.error (faultOf error))

/-- Whether there is something in a place, and whether that is a directory. -/
def isDirectory? (text : String) : IO (Option Bool) := do
  try
    let about ← ((← IO.currentDir) / text).metadata
    pure (some (match about.type with
      | .dir => true
      | _ => false))
  catch _ => pure none

def names (directory : String) : IO (List String) := do
  try
    let entries ← ((← IO.currentDir) / directory).readDir
    pure ((entries.toList.map (·.fileName)).mergeSort fun a b => a ≤ b)
  catch _ => pure []

def isHidden (name : String) : Bool := name.toList.head? == some '.'

/-- What a directory holds, without hidden names and what is below. -/
def list (directory : String) : IO (List Branch) := do
  let names ← names directory
  (names.filter (!isHidden ·)).mapM fun name => do
    match ← isDirectory? ((Path.mk directory).join name).text with
    | some true => pure (.directory name [])
    | _ => pure (.file name)

partial def walk (directory : String) : IO (List Branch) := do
  let branches ← list directory
  branches.mapM fun branch => do
    match branch with
    | .directory name _ => pure (.directory name (← walk ((Path.mk directory).join name).text))
    | .file name => pure (.file name)

def read (file : String) : IO (Except FileFault String) := do
  let bytes ← IO.FS.readBinFile file
  pure (match String.fromUTF8? bytes with
    | some text => .ok text
    | none => .error .notText)

def enter (here directory : Path) : IO (Except FileFault Path) := do
  match ← isDirectory? (place here directory) with
  | some false => pure (.error .notDirectory)
  | _ =>
    attempt directory do
      let real ← IO.FS.realPath (place here directory)
      pure ⟨real.toString⟩

def print (channel : Channel) (text : String) : IO Unit := do
  let stream ← match channel with
    | .output => IO.getStdout
    | .errors => IO.getStderr
  stream.putStr text
  stream.flush

/-- Carries out an action; the answer comes with the working directory after it. -/
def perform {α : Type} (here : Path) : Action α → IO (α × Path)
  | .location => pure (here, here)
  | .enter directory => do
    match ← enter here directory with
    | .ok there => pure (.ok (), there)
    | .error fault => pure (.error fault, here)
  | .isDirectory? path => do
    if path.text.isEmpty then pure (none, here)
    else pure (← isDirectory? (place here path), here)
  | .list directory => do pure (← list (place here directory), here)
  | .walk directory => do pure (← walk (place here directory), here)
  | .read file => do
    match ← attempt file (read (place here file)) with
    | .ok result => pure (result, here)
    | .error fault => pure (.error fault, here)
  | .makeDirectory directory => do
    pure (← attempt directory (IO.FS.createDir (place here directory)), here)
  | .write file text => do
    pure (← attempt file (IO.FS.writeFile (place here file) text), here)
  | .print channel text => do
    print channel text
    pure ((), here)
  | .clock => do pure (← IO.monoMsNow, here)

def run {α : Type} (here : Path) : Script α → IO (α × Path)
  | .done value => pure (value, here)
  | .act action next => do
    let (answer, there) ← perform here action
    run there (next answer)

/-! ## Watching -/

/-- A file and what tells whether it has changed. -/
structure Sighting where
  path : Path
  modified : IO.FS.SystemTime
  size : UInt64
  deriving BEq

/-- All files below a directory, hidden or not, under paths that begin with `here`. -/
partial def sightings (directory : String) (here : Path) : IO (List Sighting) := do
  let names ← names directory
  let found ← names.mapM fun name => do
    let inner := ((Path.mk directory).join name).text
    let path := here.join name
    try
      let about ← ((← IO.currentDir) / inner).metadata
      match about.type with
      | .dir => sightings inner path
      | _ => pure [⟨path, about.modified, about.byteSize⟩]
    catch _ => pure []
  pure found.flatten

/-- The paths under which something is seen in one list only. -/
def changes (before after : List Sighting) : List Path :=
  let gone := before.filter (!after.contains ·)
  let new := after.filter (!before.contains ·)
  ((gone ++ new).map Sighting.path).eraseDups

partial def watch (here : Path) (watch : Watch) (debounce : Nat) (before : List Sighting) :
    IO Unit := do
  IO.sleep (max debounce 1).toUInt32
  let after ← sightings here.text ⟨"."⟩
  let (_, there) ← run here (watch.again (changes before after))
  Machine.watch there watch debounce after

def environment : IO Environment := do
  let found ← Arguments.variableNames.mapM fun name => do
    pure ((← IO.getEnv name).map fun text => (name, text))
  pure (found.filterMap id)

def runProgram (arguments : List String) : IO UInt32 := do
  let here : Path := ⟨(← IO.currentDir).toString⟩
  let (outcome, there) ← run here (Program.run arguments (← environment))
  match outcome with
  | .exit code => pure code.toUInt32
  | .watching watch debounce => do
    Machine.watch there watch debounce (← sightings there.text ⟨"."⟩)
    pure 0

end Machine

end PipelineTree

def main (arguments : List String) : IO UInt32 := PipelineTree.Machine.runProgram arguments
