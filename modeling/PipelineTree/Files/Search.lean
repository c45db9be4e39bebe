import PipelineTree.Files.Pattern
import PipelineTree.Files.Script

/-!
# Search — paths that fit a pattern

A pattern for whole paths is a row of patterns for their components.  A component without wildcards is
looked up, so that it may name anything, also a dot or two; a component with wildcards goes through what
a directory holds, where hidden names are left out.
-/

namespace PipelineTree

/-- A pattern for whole paths. -/
structure Search where
  /-- where the search starts -/
  start : Path
  patterns : List Pattern
  /-- whether the pattern ends in a separator, so that only directories fit -/
  directoriesOnly : Bool
  deriving DecidableEq, Repr

namespace Search

/-! ## Reading -/

/-- Drops the empty segment after a separator at the end. -/
def dropEnding (segments : List Path.Segment) : List Path.Segment :=
  if segments.getLast? == some [] then segments.dropLast else segments

/-- Leaves one of several patterns in a row that stand for any directories. -/
def collapse : List Pattern → List Pattern
  | p :: q :: rest =>
    if p.isRecursive && q.isRecursive then collapse (q :: rest) else p :: collapse (q :: rest)
  | short => short

/-- The search for a text, unless the text is no pattern, as a whole or in a component. -/
def ofText? (text : String) : Option Search := do
  let cs := text.toList
  let _ ← Pattern.ofChars? cs
  let absolute := cs.head? == some '/'
  let segments := dropEnding (Path.splitSegments (if absolute then cs.drop 1 else cs))
  let patterns ← segments.mapM Pattern.ofChars?
  some
    { start := ⟨if absolute then "/" else "."⟩
      patterns := if patterns.isEmpty then [[]] else collapse patterns
      directoriesOnly := cs.getLast? == some '/' }

/-! ## Walking -/

/-- The path of a name in a directory. The working directory is left out. -/
def within (directory : Path) (name : String) : Path :=
  if directory.text == "." then ⟨name⟩ else directory.join name

def finish (directoriesOnly : Bool) (path : Path) : Script (List Path) := do
  let isDirectory ← Script.perform (.isDirectory? path)
  pure (if directoriesOnly && isDirectory != some true then [] else [path])

mutual

/-- Collects paths from branches of a directory and from all that is below them. -/
def collect (here : Path → Branch → Script (List Path)) (directory : Path) :
    List Branch → Script (List Path)
  | [] => .done []
  | b :: bs => do
    let found ← collectOne here directory b
    let others ← collect here directory bs
    pure (found ++ others)

/-- Collects paths from a branch of a directory and from all that is below it. -/
def collectOne (here : Path → Branch → Script (List Path)) (directory : Path) :
    Branch → Script (List Path)
  | .file name => here (within directory name) (.file name)
  | .directory name inner => do
    let found ← here (within directory name) (.directory name inner)
    let below ← collect here (within directory name) inner
    pure (found ++ below)

end

/-- The names `.` and `..` that a pattern describes, which has to begin with a dot. -/
def specialNames (pattern : Pattern) : List String :=
  if pattern.head? == some (.char '.') then ["..", "."].filter pattern.describes else []

/--
One step of a search: the paths below a directory whose first name fits a pattern.  The search goes on
from where the step leads to, or, if the pattern stands for any directories, from what is below.
-/
def advance (go : Path → Script (List Path)) (deep : Path → Branch → Script (List Path))
    (pattern : Pattern) (directory : Path) : Script (List Path) := do
  let isDirectory ← Script.perform (.isDirectory? directory)
  match pattern.literal? with
  | some name =>
    let name := String.ofList name
    let path := within directory name
    if name == "." || name == ".." then
      if isDirectory == some true then go path else pure []
    else
      let present ← Script.perform (.isDirectory? path)
      if present.isSome then go path else pure []
  | none =>
    if isDirectory != some true then pure []
    else if pattern.isRecursive then
      let branches ← Script.perform (.walk directory)
      collect deep directory branches
    else
      let special ← Script.forEach (fun name => go (directory.join name)) (specialNames pattern)
      let branches ← Script.perform (.list directory)
      let found ← Script.forEach
        (fun b => if pattern.describes b.name then go (within directory b.name) else pure []) branches
      pure (special.flatten ++ found.flatten)

/-- The paths below a directory that fit a row of patterns. -/
def below (directoriesOnly : Bool) : (patterns : List Pattern) → Path → Script (List Path)
  | [] => finish directoriesOnly
  | [pattern] =>
    advance (finish directoriesOnly) (fun path b => pure (if b.isDirectory then [path] else [])) pattern
  | pattern :: next :: rest =>
    advance (below directoriesOnly (next :: rest))
      (fun path b => if next.describes b.name then below directoriesOnly rest path else pure []) pattern

def run (search : Search) : Script (List Path) :=
  below search.directoriesOnly search.patterns search.start

end Search

end PipelineTree
