import PipelineTree.Proofs.Command.Repetition

/-!
# Rehearsal — what a dry run tells

In a dry run every turn sees the disk that the batch starts with.  In the real run it also holds the
documents of the turns before; but those stand at marked spots, where no input is, so that an input has the
same document in both runs.  What the one prints is what the other writes (`Generate.Foretells`), and the
runs come to the same answer unless a document cannot be written (`Generate.all_rehearsed`).
-/

namespace PipelineTree

/-- The same options, for a dry run or for the real one. -/
def GenerateOptions.withDryRun (options : GenerateOptions) (dryRun : Bool) : GenerateOptions :=
  { options with dryRun }

namespace Generate

variable {options : GenerateOptions} {verbose : Bool} {disk now start : Disk}
  {workspace rehearsal real : Workspace} {batch inputs : List Path} {input : Path} {generated : Generated}

/-- Whether a run is dry makes no difference to the documents. -/
theorem rendered_withDryRun (options : GenerateOptions) (dryRun : Bool) (disk : Disk) (input : Path) :
    rendered (options.withDryRun dryRun) disk input = rendered options disk input := rfl

/-! ## What is printed about an input -/

/-- What a dry run prints for a document. -/
def preview (generated : Generated) : List (Channel × String) :=
  [(.output, "# " ++ generated.output.text ++ "\n"), (.output, generated.text)]

/-- What is printed for a document that was written. -/
def receipt (generated : Generated) : List (Channel × String) :=
  [(.output, s!"  ✓ {generated.input.text} → {generated.output.text} ({generated.platform})" ++ "\n")]

/-- What is printed for an input that failed. -/
def complaint (verbose : Bool) (input : Path) (error : Error) : List (Channel × String) :=
  (.errors, s!"  ✗ {input.text}: {error.message}" ++ "\n") ::
    if verbose then
      (Recovery.ofError? error).toList.map fun recovery => (.errors, recovery.text ++ "\n")
    else []

/-- What a dry run has to say about an input. -/
def foretold (options : GenerateOptions) (verbose : Bool) (disk : Disk) (input : Path) :
    List (Channel × String) :=
  match rendered options disk input with
  | .ok generated => preview generated
  | .error error => complaint verbose input error

theorem said_report (options : GenerateOptions) (generated : Generated) (disk : Disk) :
    (report options generated).said disk =
      if options.dryRun then preview generated else receipt generated := by
  rw [report]
  cases options.dryRun <;> rfl

theorem said_reportError (verbose : Bool) (input : Path) (error : Error) (disk : Disk) :
    (reportError verbose input error).said disk = complaint verbose input error := by
  have hadvise : (if verbose then advise error else pure ()).said disk =
      if verbose then (Recovery.ofError? error).toList.map fun recovery => (.errors, recovery.text ++ "\n")
      else [] := by
    cases verbose with
    | false => rfl
    | true =>
      simp only [if_true, advise]
      cases Recovery.ofError? error <;> rfl
  rw [reportError, Script.bind_eq, Script.said_andThen, complaint, ← hadvise]
  rfl

/-- An attempt prints nothing itself. -/
theorem silent_of_asks {β : Type} {action : Action β} (h : Asks options input action) :
    action.Silent := by
  cases action with
  | print channel text => exact h.elim
  | _ => rfl

theorem said_tryOne (options : GenerateOptions) (verbose : Bool) (input : Path) (disk : Disk) :
    (tryOne options verbose input).said disk =
      match ((one options input).run.on disk).1 with
      | .ok generated => if options.dryRun then preview generated else receipt generated
      | .error error => complaint verbose input error := by
  -- The attempt is silent: all that is printed is the report on it.
  have hone := Script.said_of_silent ((uses_one options input).mono fun _ => silent_of_asks) disk
  rw [tryOne, Script.bind_eq, Script.said_andThen, hone, List.nil_append]
  rcases (one options input).run.on disk with ⟨result, after⟩
  cases result with
  | ok generated =>
    have hreport := said_report options generated after
    simp only [Script.bind_eq, Script.said_andThen, Script.pure_eq, Script.said_done,
      List.append_nil, hreport]
  | error error =>
    have hreport := said_reportError verbose input error after
    simp only [Script.bind_eq, Script.said_andThen, Script.pure_eq, Script.said_done,
      List.append_nil, hreport]

/-! ## One turn in both runs -/

/-- How a turn ends: with the answer of the attempt, with what is printed about it, and on a disk. -/
structure Ending where
  answer : Except Error Generated
  printed : List (Channel × String)
  disk : Disk

def ending (options : GenerateOptions) (verbose : Bool) (turn : Path × Workspace) : Ending where
  answer := ((one options turn.1).run.run turn.2).1
  printed := (tryOne options verbose turn.1).said turn.2.disk
  disk := ((tryOne options verbose turn.1).run turn.2).2.disk

/--
How the turn of an input ends in a dry run, and how it ends in the real one: without a document, both fail
for the same reason; with one, the dry run prints the text that the real one writes, if it can write it.
-/
inductive Foretells (verbose : Bool) (input : Path) (disk : Disk) :
    Except Error Generated → Ending → Ending → Prop where
  | failed (error : Error) (now : Disk) :
      Foretells verbose input disk (.error error)
        ⟨.error error, complaint verbose input error, disk⟩
        ⟨.error error, complaint verbose input error, now⟩
  | written (generated : Generated) (now : Disk)
      (reads : now.read generated.output = .ok generated.text) :
      Foretells verbose input disk (.ok generated)
        ⟨.ok generated, preview generated, disk⟩
        ⟨.ok generated, receipt generated, now⟩
  | unwritten (generated : Generated) (fault : FileFault) (now : Disk) :
      Foretells verbose input disk (.ok generated)
        ⟨.ok generated, preview generated, disk⟩
        ⟨.error (.fileWrite generated.output.text fault.text),
          complaint verbose input (.fileWrite generated.output.text fault.text), now⟩

theorem rendered_of_one (h : ((one options input).run.on now).1 = .ok generated) :
    rendered options now input = .ok generated := by
  have hturn := one_turn options now input
  generalize rendered options now input = document at hturn ⊢
  generalize (one options input).run.on now = ran at hturn h
  cases hturn with
  | failed error => exact absurd h (by simp)
  | unwritten _ fault wet refuses => exact absurd h (by simp)
  | printed other dry => exact h
  | written other wet accepts => exact h

/-- Where a document was written, it can be read. -/
theorem read_of_one (hwet : options.dryRun = false)
    (h : ((one options input).run.on now).1 = .ok generated) :
    ((one options input).run.on now).2.read generated.output = .ok generated.text := by
  have hopens := opens_of_one hwet h
  rcases (for_of_rendered (rendered_of_one h)).endsIn with ⟨name, hends, -⟩
  have hoverlay : Overlay now (fun _ => True) ((one options input).run.on now).1.toOption.toList now
      ((one options input).run.on now).2 :=
    overlay_one hwet rfl fun _ => grows_prepared_of_rendered
  rw [h] at hoverlay
  -- The spot of the output holds the last document that was sent there, and there is only this one.
  have hlast : lastAt now [generated] (now.goal generated.output) = some generated := by simp [lastAt]
  have hface := hoverlay.written _ generated hlast
  rw [← Disk.goal_of_location hoverlay.location] at hface
  have hnames : ((one options input).run.on now).2.NamesFile generated.output (some generated.text) :=
    ⟨hends.text_ne_empty, hopens, hface, hends.endsInStep⟩
  exact hnames.read

theorem ending_eq (options : GenerateOptions) (verbose : Bool) (input : Path) (workspace : Workspace) :
    ending options verbose (input, workspace) =
      ⟨((one options input).run.on workspace.disk).1,
        match ((one options input).run.on workspace.disk).1 with
        | .ok generated => if options.dryRun then preview generated else receipt generated
        | .error error => complaint verbose input error,
        ((one options input).run.on workspace.disk).2⟩ := by
  rw [ending, Script.run_fst, said_tryOne, run_tryOne_disk]

/-- On disks on which an input has the same document, its turn in a dry run foretells the real one. -/
theorem foretells_of_rendered (verbose : Bool)
    (hsame : rendered options real.disk input = rendered options rehearsal.disk input) :
    Foretells verbose input rehearsal.disk (rendered options rehearsal.disk input)
      (ending (options.withDryRun true) verbose (input, rehearsal))
      (ending (options.withDryRun false) verbose (input, real)) := by
  have hturn := one_turn (options.withDryRun false) real.disk input
  have hread : ∀ generated,
      ((one (options.withDryRun false) input).run.on real.disk).1 = .ok generated →
        ((one (options.withDryRun false) input).run.on real.disk).2.read generated.output =
          .ok generated.text :=
    fun _ => read_of_one rfl
  -- Both turns have the same document; the dry one only prints it.
  rw [rendered_withDryRun, hsame] at hturn
  rw [ending_eq, ending_eq, on_one_of_dry rfl, rendered_withDryRun]
  generalize rendered options rehearsal.disk input = document at hturn ⊢
  generalize (one (options.withDryRun false) input).run.on real.disk = ran at hturn hread ⊢
  cases hturn with
  | failed error => exact .failed error real.disk
  | printed generated dry => exact absurd dry (by simp [GenerateOptions.withDryRun])
  | written generated wet accepts => exact .written generated _ (hread generated rfl)
  | unwritten generated fault wet refuses => exact .unwritten generated fault _

/-! ## A batch in both runs -/

/-- The turns of one input in a dry run and in the real one, which both start on a disk. -/
structure Rehearsed (options : GenerateOptions) (verbose : Bool) (start : Disk)
    (rehearsal real : Path × Workspace) : Prop where
  input : rehearsal.1 = real.1
  /-- both runs come to the document that the input has at the start -/
  documents :
    rendered (options.withDryRun true) rehearsal.2.disk rehearsal.1 = rendered options start real.1 ∧
      rendered (options.withDryRun false) real.2.disk real.1 = rendered options start real.1
  foretold : Foretells verbose real.1 start (rendered options start real.1)
    (ending (options.withDryRun true) verbose rehearsal)
    (ending (options.withDryRun false) verbose real)

/-- The inputs have their turns in both runs, however far the real one has come. -/
theorem turns_rehearsed (verbose : Bool)
    (hgrown : rehearsal.disk.Grows Spot.Marked (fun _ => True) real.disk)
    (hinputs : ∀ input ∈ batch, rehearsal.disk.holdsInput input = true) :
    List.Forall₂ (Rehearsed options verbose rehearsal.disk)
      (turns (options.withDryRun true) verbose rehearsal batch)
      (turns (options.withDryRun false) verbose real batch) := by
  induction batch generalizing rehearsal real with
  | nil => exact .nil
  | cons input batch ih =>
    -- What was written so far stands at marked spots, and the input at none.
    have hsame := rendered_of_grows options hgrown (hinputs input List.mem_cons_self) fun _ => id
    have hdisk : ((tryOne (options.withDryRun true) verbose input).run rehearsal).2.disk =
        rehearsal.disk := by
      rw [run_tryOne_disk, on_one_of_dry rfl]
    have hnext := hgrown.trans (grows_marked (options.withDryRun false) input real.disk)
    rw [← run_tryOne_disk (options.withDryRun false) verbose input real, ← hdisk] at hnext
    have hrest := ih hnext fun other hother => by
      rw [hdisk]
      exact hinputs other (List.mem_cons_of_mem input hother)
    rw [hdisk] at hrest
    exact .cons ⟨rfl, ⟨rfl, hsame⟩, foretells_of_rendered verbose hsame⟩ hrest

theorem printed_of_dry (options : GenerateOptions) (verbose : Bool) (workspace : Workspace)
    (batch : List Path) :
    (afterTurns (options.withDryRun true) verbose workspace batch).printed =
      workspace.printed ++ batch.flatMap (foretold options verbose workspace.disk) := by
  induction batch generalizing workspace with
  | nil => exact (List.append_nil _).symm
  | cons input batch ih =>
    let next := ((tryOne (options.withDryRun true) verbose input).run workspace).2
    have hdisk : next.disk = workspace.disk := by
      rw [run_tryOne_disk, on_one_of_dry rfl]
    have hprinted : next.printed = workspace.printed ++ foretold options verbose workspace.disk input := by
      rw [Script.run_printed, said_tryOne, on_one_of_dry rfl]
      rfl
    calc
      (afterTurns (options.withDryRun true) verbose workspace (input :: batch)).printed
          = next.printed ++ batch.flatMap (foretold options verbose next.disk) := ih next
      _ = workspace.printed ++ (input :: batch).flatMap (foretold options verbose workspace.disk) := by
          rw [hdisk, hprinted, List.flatMap_cons, List.append_assoc]

/-! ## Failures in both runs -/

/-- Whether there is a document in a turn which cannot be written. -/
def writeFails (options : GenerateOptions) (turn : Path × Workspace) : Bool :=
  (rendered options turn.2.disk turn.1).isOk && fails options turn

/-- The number of failures that the answer of a batch tells. -/
def failures : Except Error Nat → Nat
  | .error (.batchFailed failed _) => failed
  | _ => 0

theorem failures_run_all (options : GenerateOptions) (verbose : Bool) (batch : List Path)
    (workspace : Workspace) :
    failures ((all options verbose batch).run.run workspace).1 =
      (turns options verbose workspace batch).countP (fails options) := by
  rw [run_all]
  dsimp only
  split
  next hnone => exact hnone.symm
  next => rfl

/-- A turn of the real run fails if that of the dry run does, or if its document cannot be written. -/
theorem Rehearsed.failure_eq {rehearsal real : Path × Workspace}
    (h : Rehearsed options verbose start rehearsal real) :
    (if fails (options.withDryRun false) real then 1 else 0) =
      (if fails (options.withDryRun true) rehearsal then 1 else 0) +
        if writeFails (options.withDryRun false) real then 1 else 0 := by
  have hforetold := h.foretold
  have hdocument := h.documents.2
  have hdry : fails (options.withDryRun true) rehearsal =
      !(ending (options.withDryRun true) verbose rehearsal).answer.isOk := rfl
  have hwet : fails (options.withDryRun false) real =
      !(ending (options.withDryRun false) verbose real).answer.isOk := rfl
  rw [writeFails, hdry, hwet, hdocument]
  generalize rendered options start real.1 = document at hforetold ⊢
  generalize ending (options.withDryRun true) verbose rehearsal = first at hforetold ⊢
  generalize ending (options.withDryRun false) verbose real = second at hforetold ⊢
  -- Both fail, none does, or only the real one, for a document that cannot be written.
  cases hforetold <;> rfl

theorem countP_fails_rehearsed {rehearsals reals : List (Path × Workspace)}
    (h : List.Forall₂ (Rehearsed options verbose start) rehearsals reals) :
    reals.countP (fails (options.withDryRun false)) =
      rehearsals.countP (fails (options.withDryRun true)) +
        reals.countP (writeFails (options.withDryRun false)) := by
  induction h with
  | nil => rfl
  | cons hturn _ ih =>
    have hfailures := hturn.failure_eq
    rw [List.countP_cons, List.countP_cons, List.countP_cons]
    omega

/-- What it is that a dry run tells the truth about the real one. -/
structure Rehearses (options : GenerateOptions) (verbose : Bool) (workspace : Workspace)
    (inputs : List Path) (rehearsal real : Except Error Nat × Workspace) : Prop where
  /-- a dry run only prints -/
  unchanged : rehearsal.2.disk = workspace.disk
  printed : rehearsal.2.printed =
    workspace.printed ++ inputs.flatMap (foretold options verbose workspace.disk)
  /-- in both runs every input has its turn, and nothing happens besides -/
  attempted : (turns (options.withDryRun true) verbose workspace inputs).map Prod.fst = inputs ∧
    rehearsal.2 = afterTurns (options.withDryRun true) verbose workspace inputs ∧
    real.2 = afterTurns (options.withDryRun false) verbose workspace inputs
  turns : List.Forall₂ (Rehearsed options verbose workspace.disk)
    (turns (options.withDryRun true) verbose workspace inputs)
    (turns (options.withDryRun false) verbose workspace inputs)
  failures : failures real.1 = failures rehearsal.1 +
    (Generate.turns (options.withDryRun false) verbose workspace inputs).countP
      (writeFails (options.withDryRun false))
  answer : (∀ turn ∈ Generate.turns (options.withDryRun false) verbose workspace inputs,
    writeFails (options.withDryRun false) turn = false) → real.1 = rehearsal.1

/-- A dry run of resolved inputs tells what the real run does. -/
theorem all_rehearsed {patterns : List String} {base : Path}
    (hresolved : ((Inputs.resolve patterns base).run.run workspace).1 = .ok inputs)
    (options : GenerateOptions) (verbose : Bool) :
    Rehearses options verbose workspace inputs
      ((all (options.withDryRun true) verbose inputs).run.run workspace)
      ((all (options.withDryRun false) verbose inputs).run.run workspace) := by
  have hinputs := Inputs.holdsInput_of_resolve hresolved
  have hturns : List.Forall₂ (Rehearsed options verbose workspace.disk)
      (turns (options.withDryRun true) verbose workspace inputs)
      (turns (options.withDryRun false) verbose workspace inputs) :=
    turns_rehearsed verbose (.refl workspace.disk) hinputs
  have hcount := countP_fails_rehearsed hturns
  have hfailures := failures_run_all (options.withDryRun false) verbose inputs workspace
  rw [hcount, ← failures_run_all] at hfailures
  have hanswer : (∀ turn ∈ turns (options.withDryRun false) verbose workspace inputs,
      writeFails (options.withDryRun false) turn = false) →
        ((all (options.withDryRun false) verbose inputs).run.run workspace).1 =
          ((all (options.withDryRun true) verbose inputs).run.run workspace).1 := by
    intro hnone
    have hwritten : (turns (options.withDryRun false) verbose workspace inputs).countP
        (writeFails (options.withDryRun false)) = 0 :=
      List.countP_eq_zero.2 fun turn hturn => by simp [hnone turn hturn]
    rw [run_all, run_all, hcount, hwritten, Nat.add_zero]
  have hended : ∀ dryRun, ((all (options.withDryRun dryRun) verbose inputs).run.run workspace).2 =
      afterTurns (options.withDryRun dryRun) verbose workspace inputs :=
    fun dryRun => congrArg Prod.snd (run_all (options.withDryRun dryRun) verbose inputs workspace)
  exact
    { unchanged := by rw [hended, afterTurns_of_dry rfl]
      printed := by rw [hended, printed_of_dry]
      attempted := ⟨fst_turns _ verbose workspace inputs, hended true, hended false⟩
      turns := hturns
      failures := hfailures
      answer := hanswer }

theorem all_rehearsed_mixed :
    foretold plainOptions false mixedWorkspace.disk ⟨"/good.json"⟩ =
        [(.output, "# /good.generated.yaml\n"), (.output, "steps:\n- script: make\n")] ∧
      (rendered plainOptions mixedWorkspace.disk ⟨"/bad.json"⟩).isOk = false ∧
      Rehearses plainOptions false mixedWorkspace [⟨"/bad.json"⟩, ⟨"/good.json"⟩]
        ((all (plainOptions.withDryRun true) false [⟨"/bad.json"⟩, ⟨"/good.json"⟩]).run.run mixedWorkspace)
        ((all (plainOptions.withDryRun false) false [⟨"/bad.json"⟩, ⟨"/good.json"⟩]).run.run
          mixedWorkspace) :=
  ⟨by decide +kernel, by decide +kernel, all_rehearsed resolve_mixed plainOptions false⟩

end Generate

end PipelineTree
