import PipelineTree.Proofs.Command.Repetition
import PipelineTree.Proofs.Files.Resolution
import PipelineTree.Proofs.Files.Trace

/-!
# Rerun — the generate command a second time

What the command does is told by the settings, by the inputs that its patterns name and by the batch of these
inputs.  It writes under marked names only, so that no input and no settings are ever written.  If no directory
for documents is made where the settings belong, and no pattern leads up, a second run comes to the same
settings and inputs, and so changes nothing.
-/

namespace PipelineTree

/-! ## Settings -/

namespace Settings

variable {disk after : Disk} {directory : Path}

theorem uses_ofDirectory (directory : Path) : (ofDirectory directory).run.Uses Action.Looks := by
  refine Attempt.uses_bind (Attempt.uses_perform trivial) ?_
  intro present
  cases present with
  | none => exact Attempt.uses_pure none
  | some isDirectory =>
    refine Attempt.uses_bind (Attempt.uses_perform trivial) ?_
    intro read
    cases read with
    | ok text => exact Attempt.uses_ofExcept _
    | error fault => exact Attempt.uses_throw _

/-- The settings of a directory are told by what stands there, and by what is read. -/
theorem ofDirectory_congr
    (hpresent : after.isDirectory? directory.settings = disk.isDirectory? directory.settings)
    (hread : disk.isDirectory? directory.settings ≠ .none →
      after.read directory.settings = disk.read directory.settings) :
    ((ofDirectory directory).run.on after).1 = ((ofDirectory directory).run.on disk).1 := by
  cases hsome : disk.isDirectory? directory.settings with
  | none =>
    rw [hsome] at hpresent
    rw [ofDirectory, Attempt.on_bind, Attempt.on_bind]
    simp [Action.run, hsome, hpresent]
  | some isDirectory =>
    rw [hsome] at hpresent hread
    have hsame := hread (by simp)
    simp only [ofDirectory, ofFile, Attempt.on_bind, Attempt.on_perform, Action.run, hsome, hpresent, hsame,
      Option.isSome_some, if_true]
    cases disk.read directory.settings <;> rfl

end Settings

namespace Generate

variable {target : Target} {dryRun verbose : Bool} {disk after : Disk} {workspace : Workspace}

/-! ## What the command answers -/

theorem uses_optionsFor (target : Target) (directory : Path) (dryRun : Bool) :
    (optionsFor target directory dryRun).run.Uses Action.Looks :=
  Attempt.uses_bind (Settings.uses_ofDirectory directory) fun _ => Attempt.uses_pure _

theorem optionsFor_congr {directory : Path}
    (h : ((Settings.ofDirectory directory).run.on after).1 =
      ((Settings.ofDirectory directory).run.on disk).1) (target : Target) (dryRun : Bool) :
    (optionsFor target directory dryRun).run.answer after =
      (optionsFor target directory dryRun).run.answer disk := by
  have hanswer : ∀ disk : Disk, (optionsFor target directory dryRun).run.answer disk =
      ((Settings.ofDirectory directory).run.on disk).1.map fun settings =>
        let merged := settings.merge ⟨target.outDir, target.maxDepth⟩
        ⟨merged.outDir, merged.depthLimit, dryRun⟩ := by
    intro disk
    rw [Script.answer, optionsFor, Attempt.on_bind]
    rcases (Settings.ofDirectory directory).run.on disk with ⟨result, ended⟩
    cases result <;> rfl
  rw [hanswer, hanswer, h]

theorem on_findInputs (patterns : List String) (directory : Path) (disk : Disk) :
    (findInputs patterns directory).run.on disk = (Inputs.resolved disk directory [] patterns, disk) := by
  rw [findInputs, Attempt.on_tryCatch, Inputs.on_resolve]
  cases Inputs.resolved disk directory [] patterns with
  | ok inputs => rfl
  | error error =>
    have hadvise := Script.on_of_keepsDisk (uses_advise error) disk
    simp only [Attempt.on_bind, Attempt.on_lift, Attempt.on_throw, hadvise]

/-- The command looks for settings and for inputs, and takes these as a batch. -/
theorem on_run (target : Target) (dryRun verbose : Bool) (disk : Disk) :
    (run target dryRun verbose).run.on disk =
      match (optionsFor target (Disk.pathOf disk.location) dryRun).run.answer disk with
      | .error error => (.error error, disk)
      | .ok options =>
        match Inputs.resolved disk (Disk.pathOf disk.location) [] target.inputs with
        | .error error => (.error error, disk)
        | .ok inputs =>
          (((all options verbose inputs).run.on disk).1.map fun _ => (),
            ((all options verbose inputs).run.on disk).2) := by
  have hoptions := Script.on_eq_answer
    (uses_optionsFor target (Disk.pathOf disk.location) dryRun) disk
  simp only [run, Attempt.on_bind, Attempt.on_perform, Action.run, hoptions]
  cases (optionsFor target (Disk.pathOf disk.location) dryRun).run.answer disk with
  | error error => rfl
  | ok options =>
    simp only [on_findInputs]
    cases Inputs.resolved disk (Disk.pathOf disk.location) [] target.inputs with
    | error error => rfl
    | ok inputs =>
      simp only
      rcases (all options verbose inputs).run.on disk with ⟨result, ended⟩
      cases result <;> rfl

/-! ## What the command writes -/

/-- An attempt at an input only writes its document, which has a marked name. -/
theorem writesMarked_of_asks {β : Type} {options : GenerateOptions} {input : Path} {action : Action β}
    (h : Asks options input action) : action.WritesMarked := by
  cases action with
  | write file text =>
    rcases h with ⟨-, generated, hfor, rfl, -⟩
    exact hfor.endsIn
  | _ => trivial

theorem uses_tryOne (options : GenerateOptions) (verbose : Bool) (input : Path) :
    (tryOne options verbose input).Uses Action.WritesMarked := by
  refine Script.Uses.andThen ((uses_one options input).mono fun _ => writesMarked_of_asks) ?_
  intro result
  cases result with
  | ok generated =>
    have hreport := (uses_report options generated).mono fun _ => Action.writesMarked_of_keepsDisk
    exact hreport.andThen fun _ => trivial
  | error error =>
    have hreport := (uses_reportError verbose input error).mono
      fun _ => Action.writesMarked_of_keepsDisk
    exact hreport.andThen fun _ => trivial

/-- The command writes to marked names only. -/
theorem uses_run (target : Target) (dryRun verbose : Bool) :
    (run target dryRun verbose).run.Uses Action.WritesMarked := by
  refine Attempt.uses_bind (Attempt.uses_perform trivial) ?_
  intro directory
  have hoptions := (uses_optionsFor target directory dryRun).mono fun _ => Action.writesMarked_of_looks
  refine Attempt.uses_bind hoptions ?_
  intro options
  refine Attempt.uses_bind ?_ ?_
  · have hresolve := (Inputs.uses_resolve target.inputs directory).mono
      fun _ => Action.writesMarked_of_looks
    refine Attempt.uses_tryCatch hresolve ?_
    intro error
    have hadvise := (uses_advise error).mono fun _ => Action.writesMarked_of_keepsDisk
    exact Attempt.uses_bind (Attempt.uses_lift hadvise) fun _ => Attempt.uses_throw error
  · intro inputs
    refine Attempt.uses_bind ?_ fun _ => Attempt.uses_pure ()
    have hturns := Script.uses_forEach fun input (_ : input ∈ inputs) => uses_tryOne options verbose input
    refine Attempt.uses_bind (Attempt.uses_lift hturns) ?_
    intro succeeded
    dsimp only
    split
    · exact Attempt.uses_throw _
    · exact Attempt.uses_pure _

/-! ## A second run -/

theorem not_marked_settingsSpot (disk : Disk) : ¬Spot.Marked disk.settingsSpot := by
  rintro ⟨name, before, hspot, hmarked⟩
  have hname : Path.settingsName = name := (List.cons.inj hspot).1
  have hunmarked : Path.isMarked Path.settingsName = false := by decide
  rw [← hname, hunmarked] at hmarked
  exact absurd hmarked (by simp)

/-- The settings stay what they are, unless documents go where they belong. -/
theorem face?_settingsSpot {options : GenerateOptions} {batch : List Path}
    (hinputs : ∀ input ∈ batch, disk.holdsInput input = true)
    (hdirectory : ∀ directory, options.outDir = some directory →
      ¬disk.PassesThrough directory disk.settingsSpot)
    (hgrows : disk.Grows (Places options disk batch) (Ways options disk batch) after) :
    after.face? disk.settingsSpot = disk.face? disk.settingsSpot := by
  have hbecomes := hgrows.becomes disk.settingsSpot
  generalize hnow : disk.face? disk.settingsSpot = face at hbecomes ⊢
  generalize after.face? disk.settingsSpot = next at hbecomes ⊢
  cases hbecomes with
  | same => rfl
  | written allowed free text =>
    exact absurd allowed.marked (not_marked_settingsSpot disk)
  | made allowed =>
    rcases allowed with ⟨input, hmem, generated, hrendered, hway⟩
    cases hout : options.outDir with
    | none =>
      -- Beside an input everything is there.
      have hthere := opens_of_beside hout (hinputs input hmem) hrendered disk.settingsSpot hway
      exact absurd (hnow.symm.trans hthere) (by simp)
    | some directory =>
      rcases (for_of_rendered hrendered).place with ⟨extension, hplain, houtput⟩
      rw [houtput, hout, Path.output_eq_join, Option.getD_some,
        Disk.way_join (Path.isName_outputName hplain)] at hway
      have hpasses : disk.PassesThrough directory disk.settingsSpot := by
        simpa [Disk.PassesThrough] using hway
      exact absurd hpasses (hdirectory directory hout)

theorem on_all_disk (options : GenerateOptions) (verbose : Bool) (batch : List Path) (disk : Disk) :
    ((all options verbose batch).run.on disk).2 = (afterTurns options verbose ⟨disk, []⟩ batch).disk := by
  have hran := congrArg (fun ran => ran.2.disk) (run_all options verbose batch ⟨disk, []⟩)
  rwa [Script.run_disk] at hran

theorem on_all_again {batch : List Path} (options : GenerateOptions) (verbose : Bool)
    (hinputs : ∀ input ∈ batch, disk.holdsInput input = true) :
    ((all options verbose batch).run.on ((all options verbose batch).run.on disk).2).1 =
        ((all options verbose batch).run.on disk).1 ∧
      ∀ spot, ((all options verbose batch).run.on ((all options verbose batch).run.on disk).2).2.face? spot =
        ((all options verbose batch).run.on disk).2.face? spot := by
  have hagain := all_again options verbose ⟨disk, []⟩ hinputs
  simpa only [Script.run_fst, Script.run_disk] using hagain

/-- What it is that a command does the same when it is run again. -/
structure Repeats (target : Target) (written : List Spot) (workspace : Workspace)
    (first again : Except Error Unit × Workspace) : Prop where
  /-- the settings and the inputs are not written to -/
  apart : ∀ spot ∈ written, spot ≠ workspace.disk.settingsSpot ∧
    ∀ inputs, ((Inputs.resolve target.inputs (Disk.pathOf workspace.disk.location)).run.run
        workspace).1 = .ok inputs → ∀ input ∈ inputs, spot ≠ workspace.disk.goal input
  inputs : ((Inputs.resolve target.inputs (Disk.pathOf first.2.disk.location)).run.run first.2).1 =
    ((Inputs.resolve target.inputs (Disk.pathOf workspace.disk.location)).run.run workspace).1
  result : again.1 = first.1
  location : again.2.disk.location = first.2.disk.location
  /-- every file and every directory is as the first run has left it -/
  unchanged : ∀ spot, again.2.disk.face? spot = first.2.disk.face? spot

/-- The command only writes files at marked spots. -/
theorem grows_run (target : Target) (dryRun verbose : Bool) (disk : Disk) :
    disk.Grows Spot.Marked (fun _ => True) ((run target dryRun verbose).run.on disk).2 := by
  rw [on_run]
  cases (optionsFor target (Disk.pathOf disk.location) dryRun).run.answer disk with
  | error error => exact .refl disk
  | ok options =>
    cases Inputs.resolved disk (Disk.pathOf disk.location) [] target.inputs with
    | error error => exact .refl disk
    | ok inputs =>
      simp only [on_all_disk]
      exact grows_afterTurns options verbose ⟨disk, []⟩ inputs

/-- After the command, the settings are read as before. -/
theorem optionsFor_after {ended : Disk} (verbose : Bool) (hdisk : disk.WellFormed)
    (hdirectory : ∀ options directory,
      (optionsFor target (Disk.pathOf disk.location) dryRun).run.answer disk = .ok options →
        options.outDir = some directory → ¬disk.PassesThrough directory disk.settingsSpot)
    (hended : ((run target dryRun verbose).run.on disk).2 = ended) :
    (optionsFor target (Disk.pathOf ended.location) dryRun).run.answer ended =
      (optionsFor target (Disk.pathOf disk.location) dryRun).run.answer disk := by
  have hlocation : ended.location = disk.location := by
    rw [← hended]
    exact (grows_run target dryRun verbose disk).location
  rw [hlocation]
  apply optionsFor_congr
  rw [on_run] at hended
  cases hoptions : (optionsFor target (Disk.pathOf disk.location) dryRun).run.answer disk with
  | error error =>
    simp only [hoptions] at hended
    rw [hended]
  | ok options =>
    cases hresolved : Inputs.resolved disk (Disk.pathOf disk.location) [] target.inputs with
    | error error =>
      simp only [hoptions, hresolved] at hended
      rw [hended]
    | ok inputs =>
      simp only [hoptions, hresolved, on_all_disk] at hended
      have hinputs := Inputs.holdsInput_of_resolved hresolved (by simp)
      have hstart : disk.Grows (Places options disk inputs) (Ways options disk inputs)
          (Workspace.mk disk []).disk := .refl disk
      have hgrows := (grows_turns options verbose hstart
        fun input hmem => ⟨hmem, hinputs input hmem⟩).2
      rw [hended] at hgrows
      let path := (Disk.pathOf disk.location).settings
      have hgoal : disk.goal path = disk.settingsSpot := hdisk.goal_settings
      have hface : ended.face? (ended.goal path) = disk.face? (disk.goal path) := by
        rw [hgrows.goal, hgoal]
        exact face?_settingsSpot hinputs (hdirectory options · hoptions) hgrows
      have hopens := hdisk.opens_settings
      rcases Disk.answers_congr (Disk.settings_endsIn _) hopens (hgrows.opens hopens) hface with
        ⟨hpresent, hread⟩
      refine Settings.ofDirectory_congr hpresent ?_
      intro hsome
      exact hread fun hnothing => hsome (Disk.isDirectory?_eq_none hnothing)

/-- Where settings and inputs are the same as before the command, it does the same again. -/
theorem on_run_again {target : Target} {dryRun verbose : Bool} {disk ended : Disk}
    (hended : ((run target dryRun verbose).run.on disk).2 = ended)
    (hsettings : (optionsFor target (Disk.pathOf ended.location) dryRun).run.answer ended =
      (optionsFor target (Disk.pathOf disk.location) dryRun).run.answer disk)
    (hinputs : Inputs.resolved ended (Disk.pathOf ended.location) [] target.inputs =
      Inputs.resolved disk (Disk.pathOf disk.location) [] target.inputs) :
    ((run target dryRun verbose).run.on ended).1 = ((run target dryRun verbose).run.on disk).1 ∧
      ∀ spot, ((run target dryRun verbose).run.on ended).2.face? spot = ended.face? spot := by
  rw [on_run] at hended
  rw [on_run, on_run, hsettings, hinputs]
  cases hoptions : (optionsFor target (Disk.pathOf disk.location) dryRun).run.answer disk with
  | error error => exact ⟨rfl, fun _ => rfl⟩
  | ok options =>
    cases hresolved : Inputs.resolved disk (Disk.pathOf disk.location) [] target.inputs with
    | error error => exact ⟨rfl, fun _ => rfl⟩
    | ok inputs =>
      simp only [hoptions, hresolved] at hended
      rcases on_all_again options verbose (Inputs.holdsInput_of_resolved hresolved (by simp)) with
        ⟨hresult, hfaces⟩
      rw [hended] at hresult hfaces
      exact ⟨congrArg (Except.map fun _ => ()) hresult, hfaces⟩

/--
The command can be run a second time: no file that it writes is an input or holds the settings, and the second
run finds the same inputs, answers the same and leaves everything as it is.
-/
theorem run_repeats (hworkspace : workspace.disk.WellFormed)
    (hpatterns : ∀ pattern ∈ target.inputs,
      Inputs.Descends (Disk.pathOf workspace.disk.location) pattern)
    (hdirectory : ∀ options directory,
      ((optionsFor target (Disk.pathOf workspace.disk.location) dryRun).run.run workspace).1 = .ok options →
        options.outDir = some directory →
          ¬workspace.disk.PassesThrough directory workspace.disk.settingsSpot) :
    let first := (run target dryRun verbose).run.run workspace
    Repeats target ((run target dryRun verbose).run.written workspace.disk) workspace first
      ((run target dryRun verbose).run.run first.2) := by
  simp only [Script.run_fst] at hdirectory
  have hended := Script.run_disk (run target dryRun verbose).run workspace
  have hgrows := grows_run target dryRun verbose workspace.disk
  have hroot := Script.root_run (run target dryRun verbose).run workspace hworkspace.root
  rw [hended] at hroot
  have hbase := Disk.isAbsolute_pathOf workspace.disk.location
  have hresolved := Inputs.resolved_grown hbase hpatterns hworkspace.root hroot hgrows []
  rw [← hgrows.location] at hresolved
  have hsettings := optionsFor_after verbose hworkspace hdirectory rfl
  rcases on_run_again rfl hsettings (hresolved.trans (by rw [hgrows.location])) with ⟨hresult, hfaces⟩
  refine ⟨?_, ?_, ?_, ?_, ?_⟩
  · intro spot hspot
    have hmarked := Script.marked_of_written (uses_run target dryRun verbose) hspot
    refine ⟨?_, ?_⟩
    · rintro rfl
      exact not_marked_settingsSpot workspace.disk hmarked
    · rintro inputs hinputs input hmem rfl
      have hinput := Inputs.holdsInput_of_resolve hinputs input hmem
      exact Disk.not_marked_of_holdsInput hinput hmarked
  · rw [Script.run_fst, Script.run_fst, Inputs.on_resolve, Inputs.on_resolve, hended, hresolved, hgrows.location]
  · rw [Script.run_fst, Script.run_fst, hended]
    exact hresult
  · rw [Script.run_disk, hended]
    exact (grows_run target dryRun verbose _).location
  · intro spot
    rw [Script.run_disk, hended]
    exact hfaces spot

/-! ## A project with a directory for documents -/

def makeTree : String :=
  "root: \x7bazure.pipeline: \x7bchildren: \x7bazure.step: \x7bscript: make\x7d\x7d\x7d\x7d\n"

/-- A workspace with one tree, a directory and some entries besides. -/
def projectWith (others : List (String × Entry)) : Workspace :=
  ⟨⟨.directory ([("x.yaml", .file (some makeTree)), ("a", .directory [("k", .file (some ""))])] ++
    others), []⟩, []⟩

/-- The directory for documents as the command leaves it. -/
def documented : List (String × Entry) :=
  [("out", .directory [("x.generated.yaml", .file (some "steps:\n- script: make\n"))])]

def outTarget (pattern : String) : Target := ⟨[pattern], some ⟨"out"⟩, none⟩

def outOptions : GenerateOptions := ⟨some ⟨"out"⟩, defaultDepthLimit, false⟩

def documentPath : Path := ⟨"out/x.generated.yaml"⟩

def documentOf (input : Path) : Generated :=
  ⟨input, documentPath, "azure", "steps:\n- script: make\n"⟩

theorem wellFormed_project : (projectWith []).disk.WellFormed := by
  have hname : ∀ name ∈ ["x.yaml", "a", "k"], Path.IsName name.toList := by
    intro name hmem
    simp only [List.mem_cons, List.not_mem_nil, or_false] at hmem
    rcases hmem with rfl | rfl | rfl
    all_goals exact ⟨by decide, by decide, by decide⟩
  refine ⟨.directory (by decide) ?_ ?_, rfl⟩
  · intro e he
    rcases List.mem_cons.1 he with rfl | he
    · exact hname _ (by simp)
    · rw [List.mem_singleton.1 he]
      exact hname _ (by simp)
  · intro e he
    rcases List.mem_cons.1 he with rfl | he
    · exact .file _
    · rw [List.mem_singleton.1 he]
      refine .directory (by decide) ?_ ?_
      · intro e he
        rw [List.mem_singleton.1 he]
        exact hname _ (by simp)
      · intro e he
        rw [List.mem_singleton.1 he]
        exact .file _

theorem options_project (pattern : String) :
    ((optionsFor (outTarget pattern) ⟨"/"⟩ false).run.run (projectWith [])).1 = .ok outOptions := by
  have hpresent : (projectWith []).disk.isDirectory? (Path.settings ⟨"/"⟩) = none := by decide
  rw [Script.run_fst, optionsFor, Attempt.on_bind, Settings.ofDirectory, Attempt.on_bind,
    Attempt.on_perform]
  simp only [Action.run, hpresent]
  rfl

theorem out_apart_from_settings :
    ¬(projectWith []).disk.PassesThrough ⟨"out"⟩ (projectWith []).disk.settingsSpot := by
  unfold Disk.PassesThrough
  decide

theorem prepared_project :
    prepared (projectWith []).disk documentPath = (projectWith [("out", .directory [])]).disk := by
  have hparent : documentPath.parent? = some ⟨"out"⟩ := by decide
  have hmake : (projectWith []).disk.makeDirectory ⟨"out"⟩ =
      .ok (projectWith [("out", .directory [])]).disk := by rfl
  rw [prepared, prepare_eq hparent]
  exact congrArg Prod.snd (Directories.on_makeWithin_ok (by decide) hmake)

/-! ### A pattern for all trees -/

/-- The search for all trees. -/
def searchTrees : Search := ⟨⟨"/"⟩, [[.anyDirectories], .anyText :: Pattern.literal ".yaml".toList], false⟩

theorem ofText?_trees : Search.ofText? "/**/*.yaml" = some searchTrees := by decide +kernel

theorem found_trees : searchTrees.found (projectWith []).disk = [⟨"/x.yaml"⟩] := by
  have hthere : (projectWith []).disk.isDirectory? ⟨"/"⟩ = some true := by decide
  have hroot : (projectWith []).disk.get ⟨"/"⟩ = .ok (projectWith []).disk.root := rfl
  have hwalk : (projectWith []).disk.walk ⟨"/"⟩ = [.directory "a" [.file "k"], .file "x.yaml"] := by
    rw [Disk.walk, hroot]
    simp [Entry.descendants, Entry.branches, Entry.branch, projectWith, Entry.sorted, Entry.isHidden,
      List.mergeSort, Branch.name]
  have hnames : Pattern.describes (.anyText :: Pattern.literal ".yaml".toList) "a" = false ∧
      Pattern.describes (.anyText :: Pattern.literal ".yaml".toList) "k" = false ∧
      Pattern.describes (.anyText :: Pattern.literal ".yaml".toList) "x.yaml" = true :=
    ⟨by cbv, by cbv, by cbv⟩
  have hpath : Search.within ⟨"/"⟩ "x.yaml" = ⟨"/x.yaml"⟩ := by decide
  rw [Search.found, searchTrees, Search.foundBelow_deep rfl hthere rfl, hwalk]
  simp only [Search.gather, Search.gatherOne, Search.foundDeep, Branch.name, hnames, if_true,
    Bool.false_eq_true, if_false, Search.foundBelow_nil, hpath, false_and, List.nil_append, List.append_nil]

theorem resolved_trees :
    Inputs.resolved (projectWith []).disk ⟨"/"⟩ [] ["**/*.yaml"] = .ok [⟨"/x.yaml"⟩] := by
  have hfull : Inputs.fullPattern ⟨"/"⟩ "**/*.yaml" = "/**/*.yaml" := by decide
  have hinput : (projectWith []).disk.holdsInput ⟨"/x.yaml"⟩ = true := by decide
  have hinputs := Inputs.inputsOf_of_found hfull ofText?_trees found_trees hinput
  rw [Inputs.resolved, hinputs]
  rfl

theorem descends_trees : Inputs.Descends ⟨"/"⟩ "**/*.yaml" := by
  have hfull : Inputs.fullPattern ⟨"/"⟩ "**/*.yaml" = "/**/*.yaml" := by decide
  intro search hsearch
  rw [hfull, ofText?_trees] at hsearch
  rw [← Option.some.inj hsearch]
  intro p hp
  have hfront : p.head? ≠ some (.char '.') := by
    rcases List.mem_cons.1 hp with rfl | hp
    · decide
    · rw [List.mem_singleton.1 hp]
      decide
  have hspecial : Search.specialNames p = [] := if_neg (by simpa using hfront)
  rw [hspecial]
  simp

/-! ### A pattern that leads up -/

/-- A component that begins with a dot, as two dots do. -/
def dotted : Pattern := [.char '.', .anyText]

/-- The search that goes up again from each directory. -/
def climbing : Search := ⟨⟨"/"⟩, [[.anyText], dotted, Pattern.literal "x.yaml".toList], false⟩

/-- Going up from a directory with one file leads to the tree beside the directory. -/
theorem foundBelow_climbing {disk : Disk} {directory : Path} {name : String} {text : Option String}
    (hget : disk.get directory = .ok (.directory [(name, .file text)]))
    (hvisible : Entry.isHidden name = false) (hname : dotted.describes name = false)
    (hhere : disk.isDirectory? (Search.within (directory.join ".") "x.yaml") = none)
    (habove : disk.isDirectory? (Search.within (directory.join "..") "x.yaml") = some false) :
    Search.foundBelow disk false [dotted, Pattern.literal "x.yaml".toList] directory =
      [Search.within (directory.join "..") "x.yaml"] := by
  have hthere : disk.isDirectory? directory = some true := by
    simp [Disk.isDirectory?, hget, Entry.isDirectory]
  have hlist : disk.list directory = [.file name] := by
    simp [Disk.list, hget, Entry.contents, Entry.sorted, Entry.stub, hvisible]
  have hspecial : Search.specialNames dotted = ["..", "."] := by cbv
  have htree : ∀ above : Path, Search.foundBelow disk false [Pattern.literal "x.yaml".toList] above =
      if (disk.isDirectory? (Search.within above "x.yaml")).isSome
      then [Search.within above "x.yaml"] else [] := by
    intro above
    rw [Search.foundBelow_literal (Pattern.literal?_literal _) (by decide) (by decide),
      String.ofList_toList]
    split
    · rw [Search.foundBelow_nil]
      simp
    · rfl
  rw [Search.foundBelow_list rfl hthere rfl, hspecial, hlist]
  simp only [List.flatMap_cons, List.flatMap_nil, List.append_nil, htree, hhere, habove, Branch.name, hname,
    if_true, Option.isSome_none, Option.isSome_some, Bool.false_eq_true, if_false]

theorem contents_project :
    (projectWith []).disk.root.contents = [.directory "a" [], .file "x.yaml"] ∧
      (projectWith documented).disk.root.contents =
        [.directory "a" [], .directory "out" [], .file "x.yaml"] := by
  constructor
  all_goals simp [Entry.contents, projectWith, documented, Entry.sorted, Entry.stub, Entry.isHidden,
    List.mergeSort, Branch.name]

/-- The tree is found once through each directory beside it. -/
theorem found_climbing :
    climbing.found (projectWith []).disk = [⟨"/a/../x.yaml"⟩] ∧
      climbing.found (projectWith documented).disk = [⟨"/a/../x.yaml"⟩, ⟨"/out/../x.yaml"⟩] := by
  let last : List Pattern := [dotted, Pattern.literal "x.yaml".toList]
  have hspecial : Search.specialNames [.anyText] = [] := rfl
  have hnames : Pattern.describes [.anyText] "a" = true ∧ Pattern.describes [.anyText] "out" = true ∧
      Pattern.describes [.anyText] "x.yaml" = true := ⟨by cbv, by cbv, by cbv⟩
  have hpaths : Search.within ⟨"/"⟩ "a" = ⟨"/a"⟩ ∧ Search.within ⟨"/"⟩ "out" = ⟨"/out"⟩ ∧
      Search.within ⟨"/"⟩ "x.yaml" = ⟨"/x.yaml"⟩ := by decide
  have hfound : ∀ (disk : Disk) (branches : List Branch), disk.isDirectory? ⟨"/"⟩ = some true →
      disk.list ⟨"/"⟩ = branches →
      climbing.found disk = branches.flatMap fun branch =>
        if Pattern.describes [.anyText] branch.name
        then Search.foundBelow disk false last (Search.within ⟨"/"⟩ branch.name) else [] := by
    intro disk branches hthere hlist
    rw [Search.found, climbing, Search.foundBelow_list rfl hthere rfl, hlist, hspecial]
    rfl
  have hfile : ∀ disk : Disk, disk.isDirectory? ⟨"/x.yaml"⟩ = some false →
      Search.foundBelow disk false last ⟨"/x.yaml"⟩ = [] :=
    fun disk hfile => Search.foundBelow_nowhere rfl (by simp [hfile])
  have ha : ∀ disk : Disk, disk.get ⟨"/a"⟩ = .ok (.directory [("k", .file (some ""))]) →
      disk.isDirectory? ⟨"/a/./x.yaml"⟩ = none → disk.isDirectory? ⟨"/a/../x.yaml"⟩ = some false →
      Search.foundBelow disk false last ⟨"/a"⟩ = [⟨"/a/../x.yaml"⟩] :=
    fun disk hget hhere habove => foundBelow_climbing hget (by decide) (by cbv) hhere habove
  constructor
  · have hlist : (projectWith []).disk.list ⟨"/"⟩ = [.directory "a" [], .file "x.yaml"] :=
      contents_project.1
    have hbelow := ha (projectWith []).disk rfl (by decide) (by decide)
    have hbeside := hfile (projectWith []).disk (by decide)
    rw [hfound _ _ (by decide) hlist]
    simp only [List.flatMap_cons, List.flatMap_nil, Branch.name, hnames, if_true, hpaths, hbelow, hbeside]
    rfl
  · have hlist : (projectWith documented).disk.list ⟨"/"⟩ =
        [.directory "a" [], .directory "out" [], .file "x.yaml"] := contents_project.2
    have hget : (projectWith documented).disk.get ⟨"/out"⟩ =
        .ok (.directory [("x.generated.yaml", .file (some "steps:\n- script: make\n"))]) := rfl
    have hbelow := ha (projectWith documented).disk rfl (by decide) (by decide)
    have hout : Search.foundBelow (projectWith documented).disk false last ⟨"/out"⟩ =
        [⟨"/out/../x.yaml"⟩] :=
      foundBelow_climbing hget (by decide) (by cbv) (by decide) (by decide)
    have hbeside := hfile (projectWith documented).disk (by decide)
    rw [hfound _ _ (by decide) hlist]
    simp only [List.flatMap_cons, List.flatMap_nil, Branch.name, hnames, if_true, hpaths, hbelow, hout,
      hbeside]
    rfl

theorem resolved_climbing :
    Inputs.resolved (projectWith []).disk ⟨"/"⟩ [] ["*/.*/x.yaml"] = .ok [⟨"/a/../x.yaml"⟩] ∧
      Inputs.resolved (projectWith documented).disk ⟨"/"⟩ [] ["*/.*/x.yaml"] =
        .ok [⟨"/a/../x.yaml"⟩, ⟨"/out/../x.yaml"⟩] := by
  have hfull : Inputs.fullPattern ⟨"/"⟩ "*/.*/x.yaml" = "/*/.*/x.yaml" := by decide
  have hsearch : Search.ofText? "/*/.*/x.yaml" = some climbing := by cbv
  constructor
  · have hinput : (projectWith []).disk.holdsInput ⟨"/a/../x.yaml"⟩ = true := by decide
    rw [Inputs.resolved, Inputs.inputsOf_of_found hfull hsearch found_climbing.1 hinput]
    rfl
  · have hinputs : [(⟨"/a/../x.yaml"⟩ : Path), ⟨"/out/../x.yaml"⟩].filter
        (projectWith documented).disk.holdsInput = [⟨"/a/../x.yaml"⟩, ⟨"/out/../x.yaml"⟩] := by
      decide
    have hfound : Inputs.inputsOf (projectWith documented).disk ⟨"/"⟩ "*/.*/x.yaml" =
        .ok [⟨"/a/../x.yaml"⟩, ⟨"/out/../x.yaml"⟩] := by
      rw [Inputs.inputsOf, hfull, hsearch]
      simp only [found_climbing.2, hinputs]
      rfl
    have hsorted : Inputs.insertAll [⟨"/a/../x.yaml"⟩, ⟨"/out/../x.yaml"⟩] [] =
        [⟨"/a/../x.yaml"⟩, ⟨"/out/../x.yaml"⟩] := by decide
    rw [Inputs.resolved, hfound]
    exact congrArg Except.ok hsorted

/-! ### The command in the project -/

theorem outcome_makeTree :
    ((Document.load .yaml makeTree).bind fun root =>
      (Registry.builtin.render defaultDepthLimit root).result).toOption =
      some (.rendered "azure" "yaml" "steps:\n- script: make\n") := by
  decide +kernel

/-- The document of the tree does not depend on the path that leads to the tree, but for its name. -/
theorem rendered_project {input : Path} (hread : (projectWith []).disk.read input = .ok makeTree)
    (hformat : Format.ofPath input = .yaml)
    (houtput : input.output "yaml" outOptions.outDir = documentPath) :
    rendered outOptions (projectWith []).disk input = .ok (documentOf input) := by
  rw [rendered_of_outcome hread (by rw [hformat]; exact outcome_makeTree), houtput]
  rfl

theorem one_project {input : Path}
    (hrendered : rendered outOptions (projectWith []).disk input = .ok (documentOf input)) :
    (one outOptions input).run.on (projectWith []).disk =
      (.ok (documentOf input), (projectWith documented).disk) := by
  have hends : documentPath.EndsIn "x.generated.yaml" :=
    ⟨by decide, ⟨by decide, by decide, by decide⟩⟩
  have haccepts : (projectWith [("out", .directory [])]).disk.Accepts documentPath := by
    unfold Disk.Accepts Disk.Opens
    decide
  rw [← prepared_project] at haccepts
  have hwrite := on_writeOutput_ok hends (documentOf input).text haccepts
  have hgoal : (projectWith []).disk.goal documentPath = ["x.generated.yaml", "out"] := by
    decide
  have hput : (projectWith [("out", .directory [])]).disk.put ["x.generated.yaml", "out"]
      (.file (some (documentOf input).text)) = (projectWith documented).disk := rfl
  rw [prepared_project, hgoal, hput] at hwrite
  have hdry : outOptions.dryRun = false := rfl
  have houtput : (documentOf input).output = documentPath := rfl
  rw [on_one, hrendered]
  simp only [hdry, Bool.false_eq_true, if_false, houtput, hwrite]

/-- The first run of the command, if it finds the tree. -/
theorem run_project {pattern : String} {input : Path}
    (hresolved : Inputs.resolved (projectWith []).disk ⟨"/"⟩ [] [pattern] = .ok [input])
    (hrendered : rendered outOptions (projectWith []).disk input = .ok (documentOf input)) :
    (run (outTarget pattern) false false).run.on (projectWith []).disk =
      (.ok (), (projectWith documented).disk) := by
  have hone := one_project hrendered
  let start : Workspace := ⟨(projectWith []).disk, []⟩
  have hdocuments : documentsOf outOptions false start [input] = [documentOf input] := by
    rw [documentsOf_cons, hone]
    rfl
  have hresult : ((all outOptions false [input]).run.on start.disk).1 = .ok 1 := by
    have hall := run_all_fst outOptions false start [input]
    rw [Script.run_fst, hdocuments] at hall
    exact hall
  have hended : ((all outOptions false [input]).run.on start.disk).2 = (projectWith documented).disk := by
    have hturn := run_tryOne_disk outOptions false input start
    rw [hone] at hturn
    rw [on_all_disk]
    exact hturn
  have hoptions : (optionsFor (outTarget pattern) ⟨"/"⟩ false).run.answer start.disk = .ok outOptions := by
    have hrun := options_project pattern
    rwa [Script.run_fst] at hrun
  have hbase : Disk.pathOf start.disk.location = ⟨"/"⟩ := rfl
  have hpatterns : (outTarget pattern).inputs = [pattern] := rfl
  rw [on_run, hbase, hoptions, hpatterns, hresolved]
  exact Prod.ext (congrArg (Except.map fun _ => ()) hresult) hended

/-- Documents below the working directory are not taken for trees when the command is run again. -/
theorem run_repeats_trees :
    let first := (run (outTarget "**/*.yaml") false false).run.run (projectWith [])
    first.1 = .ok () ∧ first.2.disk = (projectWith documented).disk ∧
      Repeats (outTarget "**/*.yaml")
        ((run (outTarget "**/*.yaml") false false).run.written (projectWith []).disk) (projectWith [])
        first ((run (outTarget "**/*.yaml") false false).run.run first.2) := by
  have hran := run_project resolved_trees
    (rendered_project (by rfl) (by decide +kernel) (by decide +kernel))
  refine ⟨?_, ?_, ?_⟩
  · rw [Script.run_fst, hran]
  · rw [Script.run_disk, hran]
  · refine run_repeats wellFormed_project ?_ ?_
    · intro pattern hmem
      rw [List.mem_singleton.1 hmem]
      exact descends_trees
    · intro options directory hoptions hdirectory
      have hsame : outOptions = options := Except.ok.inj ((options_project "**/*.yaml").symm.trans hoptions)
      have hout : (⟨"out"⟩ : Path) = directory := by
        rw [← hsame] at hdirectory
        exact Option.some.inj hdirectory
      rw [← hout]
      exact out_apart_from_settings

/--
A pattern without two dots may lead up all the same, and then finds an input once more through the directory
that the command has made.
-/
theorem climbing_finds_more :
    let first := (run (outTarget "*/.*/x.yaml") false false).run.run (projectWith [])
    (projectWith []).disk.WellFormed ∧
      ['.', '.'] ∉ (Path.mk "*/.*/x.yaml").segments ∧
      ((optionsFor (outTarget "*/.*/x.yaml") ⟨"/"⟩ false).run.run (projectWith [])).1 = .ok outOptions ∧
      ¬(projectWith []).disk.PassesThrough ⟨"out"⟩ (projectWith []).disk.settingsSpot ∧
      first.1 = .ok () ∧
      ((Inputs.resolve ["*/.*/x.yaml"] ⟨"/"⟩).run.run (projectWith [])).1 = .ok [⟨"/a/../x.yaml"⟩] ∧
      ((Inputs.resolve ["*/.*/x.yaml"] ⟨"/"⟩).run.run first.2).1 =
        .ok [⟨"/a/../x.yaml"⟩, ⟨"/out/../x.yaml"⟩] := by
  have hran := run_project resolved_climbing.1
    (rendered_project (by rfl) (by decide +kernel) (by decide +kernel))
  refine ⟨wellFormed_project, by decide, options_project _, out_apart_from_settings, ?_, ?_, ?_⟩
  · rw [Script.run_fst, hran]
  · rw [Script.run_fst, Inputs.on_resolve]
    exact resolved_climbing.1
  · rw [Script.run_fst, Script.run_disk, hran, Inputs.on_resolve]
    exact resolved_climbing.2

end Generate

end PipelineTree
