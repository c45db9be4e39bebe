import PipelineTree.Error.Run
import PipelineTree.Proofs.Files.Answers
import PipelineTree.Proofs.Files.Effects

/-!
# Discovery — the inputs that patterns name on a disk

Looking for inputs changes nothing, so that what is found is a function of the disk.  For each pattern it
is what the search for the pattern finds, less what is no file, is generated or holds the settings; a
pattern without such a file is an error.  Documents stand at marked spots, and no input stands at one.
-/

namespace PipelineTree

namespace Search

/-! ## Searches only look -/

section

variable {deep : Path → Branch → Script (List Path)} {go : Path → Script (List Path)}

mutual

theorem uses_collect (h : ∀ path branch, (deep path branch).Uses Action.Looks) (directory : Path)
    (branches : List Branch) : (collect deep directory branches).Uses Action.Looks := by
  match branches with
  | [] => exact Script.uses_done []
  | branch :: rest =>
    rw [collect, Script.bind_eq]
    refine (uses_collectOne h directory branch).andThen ?_
    intro found
    exact (uses_collect h directory rest).andThen fun others => Script.uses_done (found ++ others)

theorem uses_collectOne (h : ∀ path branch, (deep path branch).Uses Action.Looks) (directory : Path)
    (branch : Branch) : (collectOne deep directory branch).Uses Action.Looks := by
  match branch with
  | .file name => exact h (within directory name) (.file name)
  | .directory name inner =>
    rw [collectOne, Script.bind_eq]
    refine (h (within directory name) (.directory name inner)).andThen ?_
    intro found
    exact (uses_collect h (within directory name) inner).andThen
      fun below => Script.uses_done (found ++ below)

end

theorem uses_isDirectory? (path : Path) : (Script.perform (.isDirectory? path)).Uses Action.Looks :=
  ⟨trivial, fun _ => trivial⟩

theorem uses_list (path : Path) : (Script.perform (.list path)).Uses Action.Looks :=
  ⟨trivial, fun _ => trivial⟩

theorem uses_walk (path : Path) : (Script.perform (.walk path)).Uses Action.Looks :=
  ⟨trivial, fun _ => trivial⟩

/-- A search goes on only where a condition holds. -/
theorem uses_if {condition : Prop} [Decidable condition] {script other : Script (List Path)}
    (h : script.Uses Action.Looks) (hother : other.Uses Action.Looks) :
    (if condition then script else other).Uses Action.Looks := by
  split
  · exact h
  · exact hother

theorem uses_nothing : (pure [] : Script (List Path)).Uses Action.Looks := trivial

theorem uses_advance (hgo : ∀ path, (go path).Uses Action.Looks)
    (hdeep : ∀ path branch, (deep path branch).Uses Action.Looks) (pattern : Pattern)
    (directory : Path) : (advance go deep pattern directory).Uses Action.Looks := by
  rw [advance, Script.bind_eq]
  refine (uses_isDirectory? directory).andThen ?_
  intro isDirectory
  cases pattern.literal? with
  | some name =>
    refine uses_if (uses_if (hgo _) uses_nothing) ?_
    refine (uses_isDirectory? _).andThen ?_
    intro present
    exact uses_if (hgo _) uses_nothing
  | none =>
    refine uses_if uses_nothing (uses_if ?_ ?_)
    · refine (uses_walk directory).andThen ?_
      intro branches
      exact uses_collect hdeep directory branches
    · refine (Script.uses_forEach fun name _ => hgo _).andThen ?_
      intro special
      refine (uses_list directory).andThen ?_
      intro branches
      refine (Script.uses_forEach fun branch _ => uses_if (hgo _) uses_nothing).andThen ?_
      intro found
      exact Script.uses_done (special.flatten ++ found.flatten)

end

theorem uses_finish (directoriesOnly : Bool) (path : Path) :
    (finish directoriesOnly path).Uses Action.Looks :=
  (uses_isDirectory? path).andThen fun _ => trivial

theorem uses_below (directoriesOnly : Bool) (patterns : List Pattern) (directory : Path) :
    (below directoriesOnly patterns directory).Uses Action.Looks := by
  match patterns with
  | [] => exact uses_finish directoriesOnly directory
  | [pattern] =>
    refine uses_advance (uses_finish directoriesOnly) ?_ pattern directory
    intro path branch
    exact Script.uses_done _
  | pattern :: next :: rest =>
    refine uses_advance (uses_below directoriesOnly (next :: rest)) ?_ pattern directory
    intro path branch
    exact uses_if (uses_below directoriesOnly rest path) uses_nothing

/-! ## What searches find -/

mutual

/-- What is gathered at branches of a directory and at all that is below them. -/
def gather (deep : Path → Branch → List Path) (directory : Path) : List Branch → List Path
  | [] => []
  | branch :: branches => gatherOne deep directory branch ++ gather deep directory branches

/-- What is gathered at a branch of a directory and at all that is below it. -/
def gatherOne (deep : Path → Branch → List Path) (directory : Path) : Branch → List Path
  | .file name => deep (within directory name) (.file name)
  | .directory name inner =>
    deep (within directory name) (.directory name inner) ++ gather deep (within directory name) inner

end

section

variable {deep : Path → Branch → Script (List Path)} {go : Path → Script (List Path)}
  {pattern : Pattern} {directory : Path} {name : List Char} {disk : Disk}

mutual

theorem answer_collect (h : ∀ path branch, (deep path branch).Uses Action.Looks) (directory : Path)
    (branches : List Branch) (disk : Disk) :
    (collect deep directory branches).answer disk =
      gather (fun path branch => (deep path branch).answer disk) directory branches := by
  match branches with
  | [] => rfl
  | branch :: rest =>
    rw [collect, Script.bind_eq, Script.answer_andThen (uses_collectOne h directory branch),
      Script.bind_eq, Script.answer_andThen (uses_collect h directory rest), Script.answer_pure,
      answer_collectOne h directory branch disk, answer_collect h directory rest disk, gather]

theorem answer_collectOne (h : ∀ path branch, (deep path branch).Uses Action.Looks) (directory : Path)
    (branch : Branch) (disk : Disk) :
    (collectOne deep directory branch).answer disk =
      gatherOne (fun path branch => (deep path branch).answer disk) directory branch := by
  match branch with
  | .file name => rfl
  | .directory name inner =>
    rw [collectOne, Script.bind_eq, Script.answer_andThen (h _ _), Script.bind_eq,
      Script.answer_andThen (uses_collect h _ inner), Script.answer_pure,
      answer_collect h _ inner disk, gatherOne]

end

theorem answer_isDirectory? (path : Path) (disk : Disk) :
    (Script.perform (.isDirectory? path)).answer disk = disk.isDirectory? path := rfl

theorem answer_if {condition : Prop} [Decidable condition] (script : Script (List Path)) (disk : Disk) :
    (if condition then script else pure []).answer disk =
      if condition then script.answer disk else [] := by
  split <;> rfl

/-- The names of one and two dots lead somewhere from any directory. -/
theorem answer_advance_dots (hname : pattern.literal? = some name)
    (hdots : name = ['.'] ∨ name = ['.', '.']) :
    (advance go deep pattern directory).answer disk =
      if disk.isDirectory? directory = some true
      then (go (within directory (String.ofList name))).answer disk else [] := by
  have hspecial : (String.ofList name == "." || String.ofList name == "..") = true := by
    rcases hdots with rfl | rfl
    · decide
    · decide
  rw [advance, Script.bind_eq, Script.answer_andThen (uses_isDirectory? directory),
    answer_isDirectory?, hname]
  simp only [hspecial, if_true, answer_if, beq_iff_eq]

theorem answer_advance_literal (hname : pattern.literal? = some name) (hdot : name ≠ ['.'])
    (hdots : name ≠ ['.', '.']) :
    (advance go deep pattern directory).answer disk =
      if (disk.isDirectory? (within directory (String.ofList name))).isSome
      then (go (within directory (String.ofList name))).answer disk else [] := by
  have hspecial : (String.ofList name == "." || String.ofList name == "..") = false := by
    have hone : String.ofList name ≠ "." := fun h => hdot (by simpa using congrArg String.toList h)
    have htwo : String.ofList name ≠ ".." := fun h => hdots (by simpa using congrArg String.toList h)
    simp [hone, htwo]
  rw [advance, Script.bind_eq, Script.answer_andThen (uses_isDirectory? directory), hname]
  simp only [hspecial, Bool.false_eq_true, if_false, Script.bind_eq]
  rw [Script.answer_andThen (uses_isDirectory? _), answer_isDirectory?, answer_if]

/-- With wildcards nothing is found outside of directories. -/
theorem answer_advance_nowhere (hname : pattern.literal? = none)
    (hdirectory : disk.isDirectory? directory ≠ some true) :
    (advance go deep pattern directory).answer disk = [] := by
  rw [advance, Script.bind_eq, Script.answer_andThen (uses_isDirectory? directory),
    answer_isDirectory?, hname]
  simp [hdirectory]

theorem answer_advance_deep (hdeep : ∀ path branch, (deep path branch).Uses Action.Looks)
    (hname : pattern.literal? = none) (hdirectory : disk.isDirectory? directory = some true)
    (hrecursive : pattern.isRecursive = true) :
    (advance go deep pattern directory).answer disk =
      gather (fun path branch => (deep path branch).answer disk) directory (disk.walk directory) := by
  have hwalk : (Script.perform (.walk directory)).answer disk = disk.walk directory := rfl
  rw [advance, Script.bind_eq, Script.answer_andThen (uses_isDirectory? directory),
    answer_isDirectory?, hname, hdirectory]
  simp only [hrecursive, bne_self_eq_false, Bool.false_eq_true, if_false, if_true, Script.bind_eq]
  rw [Script.answer_andThen (uses_walk directory), hwalk, answer_collect hdeep]

theorem answer_advance_list (hgo : ∀ path, (go path).Uses Action.Looks)
    (hname : pattern.literal? = none) (hdirectory : disk.isDirectory? directory = some true)
    (hrecursive : pattern.isRecursive = false) :
    (advance go deep pattern directory).answer disk =
      (specialNames pattern).flatMap (fun name => (go (directory.join name)).answer disk) ++
        (disk.list directory).flatMap fun branch =>
          if pattern.describes branch.name then (go (within directory branch.name)).answer disk
          else [] := by
  have hlist : (Script.perform (.list directory)).answer disk = disk.list directory := rfl
  have hspecial : ∀ name, (go (directory.join name)).Uses Action.Looks := fun name => hgo _
  have hbranch : ∀ branch : Branch, (if pattern.describes branch.name
      then go (within directory branch.name) else pure []).Uses Action.Looks :=
    fun branch => uses_if (hgo _) uses_nothing
  rw [advance, Script.bind_eq, Script.answer_andThen (uses_isDirectory? directory),
    answer_isDirectory?, hname, hdirectory]
  simp only [hrecursive, bne_self_eq_false, Bool.false_eq_true, if_false, Script.bind_eq]
  rw [Script.answer_andThen (Script.uses_forEach fun name _ => hspecial name),
    Script.answer_forEach hspecial, Script.answer_andThen (uses_list directory), hlist,
    Script.answer_andThen (Script.uses_forEach fun branch _ => hbranch branch),
    Script.answer_forEach hbranch, Script.answer_pure]
  simp only [answer_if, List.flatMap_def]

end

/-- What a row of patterns finds below a directory of a disk. -/
def foundBelow (disk : Disk) (directoriesOnly : Bool) (patterns : List Pattern) (directory : Path) :
    List Path :=
  (below directoriesOnly patterns directory).answer disk

/-- What a search finds on a disk. -/
def found (disk : Disk) (search : Search) : List Path :=
  foundBelow disk search.directoriesOnly search.patterns search.start

theorem on_run (search : Search) (disk : Disk) : search.run.on disk = (search.found disk, disk) :=
  Script.on_eq_answer (uses_below _ _ _) disk

theorem foundBelow_nil (disk : Disk) (directoriesOnly : Bool) (path : Path) :
    foundBelow disk directoriesOnly [] path =
      if directoriesOnly = true ∧ disk.isDirectory? path ≠ some true then [] else [path] := by
  rw [foundBelow, below, finish, Script.bind_eq, Script.answer_andThen (uses_isDirectory? path),
    answer_isDirectory?, Script.answer_pure]
  simp

/-- What is gathered where a pattern stands for any directories: these, or what the rest finds in them. -/
def foundDeep (disk : Disk) (directoriesOnly : Bool) (rest : List Pattern) (path : Path)
    (branch : Branch) : List Path :=
  match rest with
  | [] => if branch.isDirectory then [path] else []
  | next :: rest =>
    if next.describes branch.name then foundBelow disk directoriesOnly rest path else []

section

variable {disk : Disk} {directoriesOnly : Bool} {pattern : Pattern} {rest : List Pattern}
  {directory : Path} {name : List Char}

/-- A search takes one step after the other. -/
theorem below_cons (directoriesOnly : Bool) (pattern : Pattern) (rest : List Pattern) :
    ∃ deep : Path → Branch → Script (List Path),
      (∀ path branch, (deep path branch).Uses Action.Looks) ∧
        (∀ disk path branch, (deep path branch).answer disk =
          foundDeep disk directoriesOnly rest path branch) ∧
        below directoriesOnly (pattern :: rest) =
          advance (below directoriesOnly rest) deep pattern := by
  cases rest with
  | nil => exact ⟨_, fun _ _ => Script.uses_done _, fun _ _ _ => rfl, rfl⟩
  | cons next rest =>
    refine ⟨_, ?_, ?_, rfl⟩
    · intro path branch
      exact uses_if (uses_below directoriesOnly rest path) uses_nothing
    · intro disk path branch
      exact answer_if _ disk

theorem foundBelow_dots (hname : pattern.literal? = some name)
    (hdots : name = ['.'] ∨ name = ['.', '.']) :
    foundBelow disk directoriesOnly (pattern :: rest) directory =
      if disk.isDirectory? directory = some true
      then foundBelow disk directoriesOnly rest (within directory (String.ofList name)) else [] := by
  rcases below_cons directoriesOnly pattern rest with ⟨deep, -, -, hbelow⟩
  rw [foundBelow, hbelow]
  exact answer_advance_dots hname hdots

theorem foundBelow_literal (hname : pattern.literal? = some name) (hdot : name ≠ ['.'])
    (hdots : name ≠ ['.', '.']) :
    foundBelow disk directoriesOnly (pattern :: rest) directory =
      if (disk.isDirectory? (within directory (String.ofList name))).isSome
      then foundBelow disk directoriesOnly rest (within directory (String.ofList name)) else [] := by
  rcases below_cons directoriesOnly pattern rest with ⟨deep, -, -, hbelow⟩
  rw [foundBelow, hbelow]
  exact answer_advance_literal hname hdot hdots

theorem foundBelow_nowhere (hname : pattern.literal? = none)
    (hdirectory : disk.isDirectory? directory ≠ some true) :
    foundBelow disk directoriesOnly (pattern :: rest) directory = [] := by
  rcases below_cons directoriesOnly pattern rest with ⟨deep, -, -, hbelow⟩
  rw [foundBelow, hbelow]
  exact answer_advance_nowhere hname hdirectory

theorem foundBelow_deep (hname : pattern.literal? = none)
    (hdirectory : disk.isDirectory? directory = some true) (hrecursive : pattern.isRecursive = true) :
    foundBelow disk directoriesOnly (pattern :: rest) directory =
      gather (foundDeep disk directoriesOnly rest) directory (disk.walk directory) := by
  rcases below_cons directoriesOnly pattern rest with ⟨deep, hlooks, hanswer, hbelow⟩
  have hdeep : (fun path branch => (deep path branch).answer disk) =
      foundDeep disk directoriesOnly rest := by
    funext path branch
    exact hanswer disk path branch
  rw [foundBelow, hbelow, answer_advance_deep hlooks hname hdirectory hrecursive, hdeep]

theorem foundBelow_list (hname : pattern.literal? = none)
    (hdirectory : disk.isDirectory? directory = some true) (hrecursive : pattern.isRecursive = false) :
    foundBelow disk directoriesOnly (pattern :: rest) directory =
      (specialNames pattern).flatMap
          (fun name => foundBelow disk directoriesOnly rest (directory.join name)) ++
        (disk.list directory).flatMap fun branch =>
          if pattern.describes branch.name
          then foundBelow disk directoriesOnly rest (within directory branch.name) else [] := by
  rcases below_cons directoriesOnly pattern rest with ⟨deep, -, -, hbelow⟩
  rw [foundBelow, hbelow]
  exact answer_advance_list (uses_below directoriesOnly rest) hname hdirectory hrecursive

end

end Search

/-! ## Inputs -/

/-- Whether a path names an input on a disk. -/
def Disk.holdsInput (disk : Disk) (path : Path) : Bool :=
  disk.isDirectory? path == some false && path.isAuthored

namespace Inputs

variable {disk : Disk} {base : Path} {patterns : List String} {sorted inputs : List Path}

theorem on_keepInputs (paths : List Path) (disk : Disk) :
    (keepInputs paths).on disk = (paths.filter disk.holdsInput, disk) := by
  induction paths with
  | nil => rfl
  | cons path paths ih =>
    have hkept : (isInput path).on disk = (disk.holdsInput path, disk) := rfl
    rw [keepInputs, Script.bind_eq, Script.on_andThen, hkept, Script.bind_eq, Script.on_andThen, ih]
    cases hinput : disk.holdsInput path <;> simp [hinput]

/-- The inputs that a pattern names on a disk, in the order in which they are found. -/
def inputsOf (disk : Disk) (base : Path) (pattern : String) : Except Error (List Path) :=
  match Search.ofText? (fullPattern base pattern) with
  | none => .error (.globPattern pattern)
  | some search =>
    let inputs := (search.found disk).filter disk.holdsInput
    if inputs.isEmpty then .error (.noInputFiles pattern) else .ok inputs

/-- The inputs that patterns name on a disk, added to a sorted list. -/
def resolved (disk : Disk) (base : Path) (sorted : List Path) : List String → Except Error (List Path)
  | [] => .ok sorted
  | pattern :: patterns => do
    let inputs ← inputsOf disk base pattern
    resolved disk base (insertAll inputs sorted) patterns

theorem on_ofPattern (base : Path) (pattern : String) (disk : Disk) :
    (ofPattern base pattern).run.on disk = (inputsOf disk base pattern, disk) := by
  rw [ofPattern, inputsOf]
  cases Search.ofText? (fullPattern base pattern) with
  | none => rfl
  | some search =>
    simp only [Attempt.on_bind, Attempt.on_lift, Search.on_run, on_keepInputs]
    split <;> rfl

theorem on_addAll (base : Path) (sorted : List Path) (patterns : List String) (disk : Disk) :
    (addAll base sorted patterns).run.on disk = (resolved disk base sorted patterns, disk) := by
  induction patterns generalizing sorted with
  | nil => rfl
  | cons pattern patterns ih =>
    rw [addAll, resolved, Attempt.on_bind, on_ofPattern]
    cases inputsOf disk base pattern with
    | error error => rfl
    | ok inputs => exact ih (insertAll inputs sorted)

theorem on_resolve (patterns : List String) (base : Path) (disk : Disk) :
    (resolve patterns base).run.on disk = (resolved disk base [] patterns, disk) :=
  on_addAll base [] patterns disk

theorem mem_insert {path p : Path} (h : p ∈ insert path sorted) : p = path ∨ p ∈ sorted := by
  induction sorted with
  | nil => simpa [insert] using h
  | cons q qs ih =>
    rw [insert] at h
    split at h
    · simpa using h
    · exact .inr h
    · rcases List.mem_cons.1 h with hq | hrest
      · exact .inr (List.mem_cons.2 (.inl hq))
      · rcases ih hrest with hpath | hmem
        · exact .inl hpath
        · exact .inr (List.mem_cons_of_mem q hmem)

theorem mem_insertAll {paths : List Path} {p : Path} (h : p ∈ insertAll paths sorted) :
    p ∈ paths ∨ p ∈ sorted := by
  induction paths generalizing sorted with
  | nil => exact .inr h
  | cons path paths ih =>
    have hrest : p ∈ insertAll paths (insert path sorted) := h
    rcases ih hrest with hmem | hmem
    · exact .inl (List.mem_cons_of_mem path hmem)
    · rcases mem_insert hmem with hpath | hsorted
      · exact .inl (List.mem_cons.2 (.inl hpath))
      · exact .inr hsorted

theorem holdsInput_of_inputsOf {pattern : String} (h : inputsOf disk base pattern = .ok inputs) :
    ∀ input ∈ inputs, disk.holdsInput input = true := by
  intro input hmem
  rw [inputsOf] at h
  cases hsearch : Search.ofText? (fullPattern base pattern) with
  | none => simp [hsearch] at h
  | some search =>
    simp only [hsearch] at h
    split at h
    · exact absurd h (by simp)
    · rw [← Except.ok.inj h] at hmem
      exact (List.mem_filter.1 hmem).2

/-- A pattern that finds one path names the input there. -/
theorem inputsOf_of_found {pattern text : String} {search : Search} {found : Path}
    (hfull : fullPattern base pattern = text) (hsearch : Search.ofText? text = some search)
    (hfound : search.found disk = [found]) (hinput : disk.holdsInput found = true) :
    inputsOf disk base pattern = .ok [found] := by
  simp [inputsOf, hfull, hsearch, hfound, hinput]

/-- All that is resolved are inputs. -/
theorem holdsInput_of_resolved (h : resolved disk base sorted patterns = .ok inputs)
    (hsorted : ∀ input ∈ sorted, disk.holdsInput input = true) :
    ∀ input ∈ inputs, disk.holdsInput input = true := by
  induction patterns generalizing sorted with
  | nil =>
    have hsame : sorted = inputs := Except.ok.inj h
    exact hsame ▸ hsorted
  | cons pattern patterns ih =>
    rw [resolved, Run.bind_eq_ok_iff] at h
    rcases h with ⟨found, hfound, hrest⟩
    apply ih hrest
    intro input hmem
    rcases mem_insertAll hmem with hmem | hmem
    · exact holdsInput_of_inputsOf hfound input hmem
    · exact hsorted input hmem

theorem holdsInput_of_resolve {workspace : Workspace}
    (h : ((resolve patterns base).run.run workspace).1 = .ok inputs) :
    ∀ input ∈ inputs, workspace.disk.holdsInput input = true := by
  rw [Script.run_fst, on_resolve] at h
  exact holdsInput_of_resolved h (by simp)

end Inputs

/-! ## Marked spots -/

/-- The last name that leads to a spot holds the marker of generated documents. -/
def Spot.Marked (spot : Spot) : Prop := ∃ name before, spot = name :: before ∧ Path.isMarked name = true

theorem Disk.marked_goal_iff {path : Path} {name : String} (h : path.EndsIn name) (disk : Disk) :
    Spot.Marked (disk.goal path) ↔ Path.isMarked name = true := by
  rcases Disk.goal_of_endsIn h disk with ⟨before, hgoal, -⟩
  constructor
  · rintro ⟨name', before', hspot, hmarked⟩
    have hname : name = name' := (List.cons.inj (hgoal.symm.trans hspot)).1
    exact hname ▸ hmarked
  · intro hmarked
    exact ⟨name, before, hgoal, hmarked⟩

theorem Path.fileName?_of_endsIn {path : Path} {name : String} (h : path.EndsIn name) :
    path.fileName? = some name := by
  rcases h.steps with ⟨front, -, hsteps⟩
  rw [Path.fileName?_eq_some_iff, hsteps]
  exact ⟨List.getLast?_concat, h.isName.down⟩

namespace Disk

variable {disk : Disk} {path : Path}

/-- An input is a file whose name is neither marked nor that of the settings. -/
theorem holdsInput_iff :
    disk.holdsInput path = true ↔
      ∃ text name, disk.NamesFile path text ∧ path.EndsIn name ∧ Path.isMarked name = false ∧
        name ≠ Path.settingsName := by
  have hauthored : ∀ {name}, path.EndsIn name →
      (path.isAuthored = true ↔ Path.isMarked name = false ∧ name ≠ Path.settingsName) := by
    intro name hends
    have hname := Path.fileName?_of_endsIn hends
    simp [Path.isAuthored, Path.isGenerated, Path.isSettings, hname, Path.isMarked]
  rw [holdsInput, Bool.and_eq_true, beq_iff_eq, isDirectory?_eq_false_iff]
  constructor
  · rintro ⟨⟨text, hnames⟩, hpath⟩
    rcases hnames.endsIn with ⟨name, hends⟩
    exact ⟨text, name, hnames, hends, (hauthored hends).1 hpath⟩
  · rintro ⟨text, name, hnames, hends, hpath⟩
    exact ⟨⟨text, hnames⟩, (hauthored hends).2 hpath⟩

/-- No input stands at a marked spot. -/
theorem not_marked_of_holdsInput (h : disk.holdsInput path = true) :
    ¬Spot.Marked (disk.goal path) := by
  rcases holdsInput_iff.1 h with ⟨text, name, -, hends, hunmarked, -⟩
  rw [marked_goal_iff hends, hunmarked]
  simp

end Disk

end PipelineTree
