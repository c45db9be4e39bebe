import PipelineTree.Proofs.Command.Turn
import PipelineTree.Proofs.Files.Lookup

/-!
# Batch — inputs taken one after the other

Whatever is written for one input leaves the texts of all inputs as they are, since documents go to marked
spots and inputs never stand at one.  So each turn of a batch makes the document that the input has on the
disk the batch starts with (`Generate.all_isolated`), and the disk only grows by these documents.
-/

namespace PipelineTree

namespace Generate

variable {options : GenerateOptions} {verbose : Bool} {disk : Disk} {workspace : Workspace}
  {batch inputs : List Path} {input : Path}

/-! ## The turns of a batch -/

/-- The inputs of a batch, each with the workspace of its turn. -/
def turns (options : GenerateOptions) (verbose : Bool) (workspace : Workspace) :
    List Path → List (Path × Workspace)
  | [] => []
  | input :: inputs =>
    (input, workspace) :: turns options verbose ((tryOne options verbose input).run workspace).2 inputs

/-- The workspace after the turns of a batch. -/
def afterTurns (options : GenerateOptions) (verbose : Bool) (workspace : Workspace)
    (batch : List Path) : Workspace :=
  batch.foldl (fun now input => ((tryOne options verbose input).run now).2) workspace

/-- Whether the attempt at an input fails. -/
def fails (options : GenerateOptions) (turn : Path × Workspace) : Bool :=
  !((one options turn.1).run.run turn.2).1.isOk

theorem fst_turns (options : GenerateOptions) (verbose : Bool) (workspace : Workspace)
    (batch : List Path) : (turns options verbose workspace batch).map Prod.fst = batch := by
  induction batch generalizing workspace with
  | nil => rfl
  | cons input inputs ih => exact congrArg (input :: ·) (ih _)

theorem mem_of_mem_turns {turn : Path × Workspace} (h : turn ∈ turns options verbose workspace batch) :
    turn.1 ∈ batch := by
  rw [← fst_turns options verbose workspace batch]
  exact List.mem_map_of_mem h

theorem uses_report (options : GenerateOptions) (generated : Generated) :
    (report options generated).Uses Action.KeepsDisk := by
  rw [report]
  cases options.dryRun with
  | true => exact ⟨trivial, fun _ => ⟨trivial, fun _ => trivial⟩⟩
  | false => exact ⟨trivial, fun _ => trivial⟩

theorem uses_advise (error : Error) : (advise error).Uses Action.KeepsDisk := by
  rw [advise]
  cases Recovery.ofError? error with
  | none => trivial
  | some recovery => exact ⟨trivial, fun _ => trivial⟩

theorem uses_reportError (verbose : Bool) (input : Path) (error : Error) :
    (reportError verbose input error).Uses Action.KeepsDisk := by
  refine Script.Uses.andThen ⟨trivial, fun _ => trivial⟩ ?_
  intro _
  cases verbose with
  | true => exact uses_advise error
  | false => trivial

/-- Reporting on an attempt touches no file. -/
theorem on_tryOne (options : GenerateOptions) (verbose : Bool) (input : Path) (disk : Disk) :
    (tryOne options verbose input).on disk =
      (((one options input).run.on disk).1.isOk, ((one options input).run.on disk).2) := by
  rw [tryOne, Script.bind_eq, Script.on_andThen]
  rcases (one options input).run.on disk with ⟨result, after⟩
  cases result with
  | ok generated =>
    have hreport := Script.on_of_keepsDisk (uses_report options generated) after
    simp only [Script.bind_eq, Script.on_andThen, hreport]
    rfl
  | error error =>
    have hreport := Script.on_of_keepsDisk (uses_reportError verbose input error) after
    simp only [Script.bind_eq, Script.on_andThen, hreport]
    rfl

theorem run_tryOne_fst (options : GenerateOptions) (verbose : Bool) (input : Path)
    (workspace : Workspace) :
    ((tryOne options verbose input).run workspace).1 = !fails options (input, workspace) := by
  rw [fails, Bool.not_not, Script.run_fst, Script.run_fst, on_tryOne]

theorem run_tryOne_disk (options : GenerateOptions) (verbose : Bool) (input : Path)
    (workspace : Workspace) :
    ((tryOne options verbose input).run workspace).2.disk =
      ((one options input).run.on workspace.disk).2 := by
  rw [Script.run_disk, on_tryOne]

theorem run_forEach_tryOne (options : GenerateOptions) (verbose : Bool) (batch : List Path)
    (workspace : Workspace) :
    (Script.forEach (tryOne options verbose) batch).run workspace =
      ((turns options verbose workspace batch).map (!fails options ·),
        afterTurns options verbose workspace batch) := by
  induction batch generalizing workspace with
  | nil => rfl
  | cons input inputs ih =>
    rw [Script.forEach, Script.bind_eq, Script.run_andThen, Script.bind_eq, Script.run_andThen, ih,
      run_tryOne_fst]
    rfl

/-- The result of a batch tells how many of its turns failed. -/
theorem run_all (options : GenerateOptions) (verbose : Bool) (batch : List Path)
    (workspace : Workspace) :
    (all options verbose batch).run.run workspace =
      let failed := (turns options verbose workspace batch).countP (fails options)
      (if failed = 0 then .ok batch.length else .error (.batchFailed failed batch.length),
        afterTurns options verbose workspace batch) := by
  have hcount : ((turns options verbose workspace batch).map (!fails options ·)).count false =
      (turns options verbose workspace batch).countP (fails options) := by
    rw [List.count, List.countP_map]
    refine List.countP_congr ?_
    intro turn _
    simp
  let failed := (turns options verbose workspace batch).countP (fails options)
  rw [all, ExceptT.run_bind, ExceptT.run_lift]
  simp only [Functor.map, Script.bind_eq, Script.run_andThen, run_forEach_tryOne, Script.pure_eq,
    Function.comp_apply, Script.run_done, hcount]
  by_cases hnone : failed = 0
  · have hnot : ¬failed > 0 := by omega
    rw [if_neg hnot, if_pos hnone]
    rfl
  · have hsome : failed > 0 := Nat.pos_of_ne_zero hnone
    rw [if_pos hsome, if_neg hnone]
    rfl

/-! ## Growth through a batch -/

/-- The spots of the documents of some inputs. -/
def Places (options : GenerateOptions) (disk : Disk) (batch : List Path) (spot : Spot) : Prop :=
  ∃ input ∈ batch, ∃ generated, rendered options disk input = .ok generated ∧
    spot = disk.goal generated.output

/-- The spots on the way to the documents of some inputs. -/
def Ways (options : GenerateOptions) (disk : Disk) (batch : List Path) (spot : Spot) : Prop :=
  ∃ input ∈ batch, ∃ generated, rendered options disk input = .ok generated ∧
    spot ∈ disk.way generated.output

theorem Places.marked {spot : Spot} (h : Places options disk batch spot) : Spot.Marked spot := by
  rcases h with ⟨input, -, generated, hrendered, rfl⟩
  exact (for_of_rendered hrendered).marked disk

/-- A turn keeps the growth of a batch, since it makes the document that the input had at the start. -/
theorem grows_one {now : Disk}
    (hgrows : disk.Grows (Places options disk batch) (Ways options disk batch) now)
    (hmem : input ∈ batch) (hinput : disk.holdsInput input = true) :
    disk.Grows (Places options disk batch) (Ways options disk batch)
      ((one options input).run.on now).2 := by
  have hsame := rendered_of_grows options hgrows hinput fun _ => Places.marked
  have hturn := one_turn options now input
  have hstep := hturn.grows fun generated hgenerated => for_of_rendered hgenerated
  refine hgrows.trans (hstep.mono ?_ ?_)
  · rintro spot ⟨generated, hrendered, hspot⟩
    rw [hsame] at hrendered
    rw [hgrows.goal] at hspot
    exact ⟨input, hmem, generated, hrendered, hspot⟩
  · rintro spot ⟨generated, hrendered, hspot⟩
    rw [hsame] at hrendered
    rw [hgrows.way] at hspot
    exact ⟨input, hmem, generated, hrendered, hspot⟩

/-- From the start of a batch to each of its turns, and to its end, the disk only grows. -/
theorem grows_turns (options : GenerateOptions) (verbose : Bool) {rest : List Path}
    (hgrows : disk.Grows (Places options disk batch) (Ways options disk batch) workspace.disk)
    (hrest : ∀ input ∈ rest, input ∈ batch ∧ disk.holdsInput input = true) :
    (∀ turn ∈ turns options verbose workspace rest,
        disk.Grows (Places options disk batch) (Ways options disk batch) turn.2.disk) ∧
      disk.Grows (Places options disk batch) (Ways options disk batch)
        (afterTurns options verbose workspace rest).disk := by
  induction rest generalizing workspace with
  | nil => exact ⟨fun turn hturn => absurd hturn (by simp [turns]), hgrows⟩
  | cons input rest ih =>
    rcases hrest input List.mem_cons_self with ⟨hmem, hinput⟩
    have hnext := grows_one hgrows hmem hinput
    rw [← run_tryOne_disk options verbose input workspace] at hnext
    rcases ih hnext fun other hother => hrest other (List.mem_cons_of_mem input hother) with
      ⟨hturns, hend⟩
    refine ⟨?_, hend⟩
    intro turn hturn
    rcases List.mem_cons.1 hturn with rfl | hlater
    · exact hgrows
    · exact hturns turn hlater

/-! ## Isolation -/

/--
What an attempt does that has a given document: without a document, it fails for the same reason and leaves
the disk as it is; with one, it answers with the document, unless that cannot be written.
-/
def Follows (options : GenerateOptions) (document : Except Error Generated) (before : Disk)
    (ran : Except Error Generated × Workspace) : Prop :=
  match document with
  | .error error => ran.1 = .error error ∧ ran.2.disk = before
  | .ok generated =>
    ran.1 = .ok generated ∨
      (options.dryRun = false ∧
        ∃ fault : FileFault, ran.1 = .error (.fileWrite generated.output.text fault.text))

theorem one_follows (options : GenerateOptions) (input : Path) (workspace : Workspace) :
    Follows options (rendered options workspace.disk input) workspace.disk
      ((one options input).run.run workspace) := by
  have hturn := one_turn options workspace.disk input
  unfold Follows
  rw [Script.run_fst, Script.run_disk]
  generalize rendered options workspace.disk input = document at hturn ⊢
  generalize (one options input).run.on workspace.disk = ran at hturn ⊢
  cases hturn with
  | failed error => exact ⟨rfl, rfl⟩
  | printed generated dry => exact .inl rfl
  | written generated wet accepts => exact .inl rfl
  | unwritten generated fault wet refuses => exact .inr ⟨wet, fault, rfl⟩

/-- In each turn of a batch of inputs, the document is the one that the input had at the start. -/
theorem turns_follow (options : GenerateOptions) (verbose : Bool)
    (hinputs : ∀ input ∈ batch, workspace.disk.holdsInput input = true) :
    ∀ turn ∈ turns options verbose workspace batch,
      Follows options (rendered options workspace.disk turn.1) turn.2.disk
        ((one options turn.1).run.run turn.2) := by
  have hgrown := grows_turns options verbose (.refl workspace.disk)
    fun input hmem => ⟨hmem, hinputs input hmem⟩
  intro turn hturn
  have hmem := mem_of_mem_turns hturn
  -- The texts of inputs are not written to, so that the document is still the same.
  have hsame := rendered_of_grows options (hgrown.1 turn hturn) (hinputs turn.1 hmem)
    fun _ => Places.marked
  rw [← hsame]
  exact one_follows options turn.1 turn.2

/-- What it is that the inputs of a batch do not disturb each other. -/
structure Isolated (options : GenerateOptions) (verbose : Bool) (workspace : Workspace)
    (batch : List Path) (ran : Except Error Nat × Workspace) : Prop where
  /-- every input has its turn, in order, and nothing happens besides -/
  attempted : (turns options verbose workspace batch).map Prod.fst = batch ∧
    ran.2 = afterTurns options verbose workspace batch
  /-- in its turn an input makes the document that it has at the start -/
  inTurn : ∀ turn ∈ turns options verbose workspace batch,
    Follows options (rendered options workspace.disk turn.1) turn.2.disk
      ((one options turn.1).run.run turn.2)
  /-- and so it does alone -/
  alone : ∀ input ∈ batch, Follows options (rendered options workspace.disk input) workspace.disk
    ((one options input).run.run workspace)
  /-- only documents are written, and directories are made only on the way to them -/
  grows : workspace.disk.Grows (Places options workspace.disk batch)
    (Ways options workspace.disk batch) ran.2.disk
  result : ran.1 =
    let failed := (turns options verbose workspace batch).countP (fails options)
    if failed = 0 then .ok batch.length else .error (.batchFailed failed batch.length)

/--
The inputs that patterns name do not disturb each other, whichever of them are taken and in whatever order,
and whichever of them fail.
-/
theorem all_isolated {patterns : List String} {base : Path}
    (hresolved : ((Inputs.resolve patterns base).run.run workspace).1 = .ok inputs)
    (hbatch : ∀ input ∈ batch, input ∈ inputs) (options : GenerateOptions) (verbose : Bool) :
    Isolated options verbose workspace batch ((all options verbose batch).run.run workspace) := by
  have hinputs : ∀ input ∈ batch, workspace.disk.holdsInput input = true :=
    fun input hmem => Inputs.holdsInput_of_resolve hresolved input (hbatch input hmem)
  have hgrown := grows_turns options verbose (.refl workspace.disk)
    fun input hmem => ⟨hmem, hinputs input hmem⟩
  rw [run_all]
  exact
    { attempted := ⟨fst_turns options verbose workspace batch, rfl⟩
      inTurn := turns_follow options verbose hinputs
      alone := fun input _ => one_follows options input workspace
      grows := hgrown.2
      result := rfl }

/-- A workspace with a tree that renders and one that does not load. -/
def mixedWorkspace : Workspace :=
  ⟨⟨.directory
      [("good.json", .file (some
        "\x7b\"root\": \x7b\"azure.pipeline\": \x7b\"children\": \x7b\"azure.step\": \x7b\"script\": \"make\"\x7d\x7d\x7d\x7d\x7d")),
       ("bad.json", .file (some "\x7b\"root\": 7\x7d"))], []⟩, []⟩

def plainOptions : GenerateOptions := ⟨none, 32, false⟩

theorem resolve_mixed :
    ((Inputs.resolve ["good.json", "bad.json"] ⟨"/"⟩).run.run mixedWorkspace).1 =
      .ok [⟨"/bad.json"⟩, ⟨"/good.json"⟩] := by
  have hgood : Search.ofText? "/good.json" =
      some ⟨⟨"/"⟩, [Pattern.literal "good.json".toList], false⟩ := by cbv
  have hbad : Search.ofText? "/bad.json" =
      some ⟨⟨"/"⟩, [Pattern.literal "bad.json".toList], false⟩ := by cbv
  have hgoodInputs : Inputs.inputsOf mixedWorkspace.disk ⟨"/"⟩ "good.json" = .ok [⟨"/good.json"⟩] :=
    Inputs.inputsOf_of_found (by decide) hgood (by decide) (by decide)
  have hbadInputs : Inputs.inputsOf mixedWorkspace.disk ⟨"/"⟩ "bad.json" = .ok [⟨"/bad.json"⟩] :=
    Inputs.inputsOf_of_found (by decide) hbad (by decide) (by decide)
  have hsorted : Inputs.insertAll [⟨"/bad.json"⟩] (Inputs.insertAll [⟨"/good.json"⟩] []) =
      [⟨"/bad.json"⟩, ⟨"/good.json"⟩] := by decide
  rw [Script.run_fst, Inputs.on_resolve, Inputs.resolved, hgoodInputs, Run.ok_bind, Inputs.resolved,
    hbadInputs, Run.ok_bind, Inputs.resolved, hsorted]

theorem all_isolated_mixed :
    (rendered plainOptions mixedWorkspace.disk ⟨"/good.json"⟩).isOk = true ∧
      (rendered plainOptions mixedWorkspace.disk ⟨"/bad.json"⟩).isOk = false ∧
      Isolated plainOptions false mixedWorkspace [⟨"/bad.json"⟩, ⟨"/good.json"⟩]
        ((all plainOptions false [⟨"/bad.json"⟩, ⟨"/good.json"⟩]).run.run mixedWorkspace) :=
  ⟨by decide +kernel, by decide +kernel,
    all_isolated resolve_mixed (fun _ hmem => hmem) plainOptions false⟩

end Generate

end PipelineTree
