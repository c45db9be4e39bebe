import PipelineTree.Command.Generate
import PipelineTree.Proofs.Error.Comparison
import PipelineTree.Proofs.Files.Discovery
import PipelineTree.Proofs.Files.Growth
import PipelineTree.Proofs.Files.Trace

/-!
# Turn — what becomes of one input

The document of an input depends on nothing but the text of the input (`Generate.rendered`).  What a turn
of the generator does with it is one of four things (`Generate.Turn`), and in each of them the disk only
changes at the output, which is a marked spot, and on its way.
-/

namespace PipelineTree

/-! ## Documents -/

/-- The extensions of documents are names of their own. -/
theorem Registry.slash_not_mem_extension {ρ : Type} [ExpansionRule ρ] {limit : Nat} {root : Node ρ}
    {platform extension text : String}
    (h : (Registry.render builtin limit root).result = .ok (.rendered platform extension text)) :
    '/' ∉ extension.toList := by
  rw [Registry.render] at h
  split at h
  next compiler primitive hcompiler hprimitive =>
    have hmem : compiler ∈ (builtin : Registry ρ) := by
      rw [Registry.forRoot?, Option.bind_eq_some_iff] at hcompiler
      rcases hcompiler with ⟨kind, -, hfind⟩
      exact List.mem_of_find?_eq_some hfind
    have hextension : compiler.extension = extension := by
      simp only [Run.bind_eq, Run.result_andThen, Run.bind_eq_ok_iff] at h
      rcases h with ⟨-, -, written, -, hdone⟩
      cases written with
      | none => simp at hdone
      | some document =>
        simp only [Run.pure_eq, Run.result_done, Except.ok.injEq, Outcome.rendered.injEq] at hdone
        exact hdone.2.1
    rw [← hextension]
    have hplain : '/' ∉ ("yml" : String).toList ∧ '/' ∉ ("yaml" : String).toList := by decide
    rcases List.mem_cons.1 hmem with rfl | hmem
    · exact hplain.1
    · rcases List.mem_singleton.1 hmem with rfl
      exact hplain.2
  next =>
    exact absurd h (by simp)

/-- Where the document of an input goes. -/
structure Generated.For (options : GenerateOptions) (input : Path) (generated : Generated) : Prop where
  origin : generated.input = input
  place : ∃ extension : String, '/' ∉ extension.toList ∧
    generated.output = input.output extension options.outDir

theorem Generated.for_of_ofText {options : GenerateOptions} {input : Path} {text : String}
    {generated : Generated} (h : Generated.ofText options input text = .ok generated) :
    Generated.For options input generated := by
  rw [Generated.ofText, Run.bind_eq_ok_iff] at h
  rcases h with ⟨root, -, h⟩
  rw [Run.bind_eq_ok_iff] at h
  rcases h with ⟨outcome, hrender, h⟩
  cases outcome with
  | rendered platform extension document =>
    have hgenerated : ⟨input, input.output extension options.outDir, platform, document⟩ = generated :=
      Except.ok.inj h
    subst hgenerated
    exact ⟨rfl, extension, Registry.slash_not_mem_extension hrender, rfl⟩
  | empty => exact absurd h (by intro hthrow; cases hthrow)
  | noRenderer kind => exact absurd h (by intro hthrow; cases hthrow)

/-- Documents go to names with the marker. -/
theorem Generated.For.endsIn {options : GenerateOptions} {input : Path} {generated : Generated}
    (h : Generated.For options input generated) :
    ∃ name, generated.output.EndsIn name ∧ Path.isMarked name = true := by
  rcases h.place with ⟨extension, hplain, houtput⟩
  refine ⟨input.outputName extension, ?_, Path.isMarked_outputName input extension⟩
  rw [houtput]
  exact Path.output_endsIn input options.outDir hplain

theorem Generated.For.marked {options : GenerateOptions} {input : Path} {generated : Generated}
    (h : Generated.For options input generated) (disk : Disk) :
    Spot.Marked (disk.goal generated.output) := by
  rcases h.endsIn with ⟨name, hends, hmarked⟩
  exact (Disk.marked_goal_iff hends disk).2 hmarked

namespace Generate

variable {options : GenerateOptions} {disk after : Disk} {input output : Path} {text name : String}

/-- The document of an input as it is on a disk, or why there is none. -/
def rendered (options : GenerateOptions) (disk : Disk) (input : Path) : Except Error Generated :=
  match disk.read input with
  | .ok text => Generated.ofText options input text
  | .error fault => .error (.fileRead input.text fault.text)

theorem for_of_rendered {generated : Generated} (h : rendered options disk input = .ok generated) :
    Generated.For options input generated := by
  rw [rendered] at h
  split at h
  · exact Generated.for_of_ofText h
  · exact absurd h (by simp)

/-- The document of an input holds what the text of the input is rendered to. -/
theorem rendered_of_outcome {platform extension document : String} (hread : disk.read input = .ok text)
    (houtcome : ((Document.load (Format.ofPath input) text).bind fun root =>
      (Registry.builtin.render options.depthLimit root).result).toOption =
        some (.rendered platform extension document)) :
    rendered options disk input =
      .ok ⟨input, input.output extension options.outDir, platform, document⟩ := by
  rw [rendered, hread]
  cases hload : Document.load (Format.ofPath input) text with
  | error error => simp [hload, Except.bind, Except.toOption] at houtcome
  | ok root =>
    cases hresult : (Registry.builtin.render options.depthLimit root).result with
    | error error => simp [hload, hresult, Except.bind, Except.toOption] at houtcome
    | ok outcome =>
      simp only [hload, hresult, Except.bind, Except.toOption, Option.some.injEq] at houtcome
      simp only [Generated.ofText, hload, hresult, houtcome, bind, Except.bind]
      rfl

/-- The document of an input only depends on the text of the input. -/
theorem rendered_of_grows (options : GenerateOptions) {files directories : Spot → Prop}
    (hgrows : disk.Grows files directories after) (hinput : disk.holdsInput input = true)
    (hfiles : ∀ spot, files spot → Spot.Marked spot) :
    rendered options after input = rendered options disk input := by
  rcases Disk.holdsInput_iff.1 hinput with ⟨text, name, hnames, -⟩
  have hnot : ¬files (disk.goal input) :=
    fun hfile => Disk.not_marked_of_holdsInput hinput (hfiles _ hfile)
  have hafter := hgrows.namesFile hnames hnot
  rw [rendered, rendered, hnames.read, hafter.read]

/-! ## Writing documents -/

/-- Makes the directory that an output goes to. -/
def prepare (output : Path) : Script (Except FileFault Unit) :=
  match output.parent? with
  | some parent => if parent.text.isEmpty then pure (.ok ()) else Directories.make parent
  | none => pure (.ok ())

/-- A disk on which the directory of an output has been made, as far as that is possible. -/
def prepared (disk : Disk) (output : Path) : Disk := ((prepare output).on disk).2

/-- Writes a document to a directory that is there. -/
def place (output : Path) (text : String) : Attempt Unit := do
  match ← Attempt.perform (.write output text) with
  | .ok () => pure ()
  | .error fault => throw (.fileWrite output.text fault.text)

theorem on_place (output : Path) (text : String) (disk : Disk) :
    (place output text).run.on disk =
      match disk.write output (.file (some text)) with
      | .ok after => (.ok (), after)
      | .error fault => (.error (.fileWrite output.text fault.text), disk) := by
  cases h : disk.write output (.file (some text)) with
  | error fault =>
    rw [place, Attempt.on_bind]
    simp [Action.run, Workspace.update, h]
  | ok after =>
    rw [place, Attempt.on_bind]
    simp [Action.run, Workspace.update, h]

/-- A document is written once its directory is there. -/
theorem writeOutput_eq (output : Path) (text : String) :
    writeOutput output text = (do
      match ← ExceptT.lift (prepare output) with
      | .ok () => place output text
      | .error fault => do
        throw (.fileWrite output.text fault.text)
        place output text) := by
  have hready : (do
      match ← (ExceptT.lift (pure (.ok ())) : Attempt (Except FileFault Unit)) with
      | .ok () => place output text
      | .error fault => do
        throw (.fileWrite output.text fault.text)
        place output text) = place output text := rfl
  rw [prepare]
  cases hparent : output.parent? with
  | none =>
    rw [hready, writeOutput, hparent]
    rfl
  | some parent =>
    cases htext : parent.text.isEmpty with
    | true =>
      simp only [htext, if_true]
      rw [hready]
      simp only [writeOutput, hparent, htext, Bool.not_true, Bool.false_eq_true, if_false]
      rfl
    | false =>
      simp only [writeOutput, hparent, htext, Bool.not_false, Bool.false_eq_true, if_true, if_false]
      rfl

theorem on_writeOutput (output : Path) (text : String) (disk : Disk) :
    (writeOutput output text).run.on disk =
      match ((prepare output).on disk).1 with
      | .ok () => (place output text).run.on (prepared disk output)
      | .error fault => (.error (.fileWrite output.text fault.text), prepared disk output) := by
  rw [writeOutput_eq, Attempt.on_bind, Attempt.on_lift, prepared]
  rcases (prepare output).on disk with ⟨result, between⟩
  cases result with
  | ok value => rfl
  | error fault => rfl

/-! ## What an attempt asks for -/

/--
The actions of an attempt at an input: it reads the input and, unless in a dry run, makes directories and
writes the document.
-/
def Asks {β : Type} (options : GenerateOptions) (input : Path) : Action β → Prop
  | .read file => file = input
  | .isDirectory? _ | .makeDirectory _ => options.dryRun = false
  | .write file text => options.dryRun = false ∧ ∃ generated, Generated.For options input generated ∧
      file = generated.output ∧ text = generated.text
  | _ => False

section

variable {allowed : {γ : Type} → Action γ → Prop} (hlook : ∀ path, allowed (.isDirectory? path))
  (hmake : ∀ path, allowed (.makeDirectory path))

include hlook hmake

/-- Making a directory asks for directories only. -/
theorem uses_makeWithin (directory : Path) (levels : Nat) :
    (Directories.makeWithin directory levels).Uses allowed := by
  have hthere : ∀ directory fault, (Directories.unlessThere directory fault).Uses allowed :=
    fun directory fault => ⟨hlook directory, fun _ => trivial⟩
  induction levels generalizing directory with
  | zero => trivial
  | succ levels ih =>
    rw [Directories.makeWithin]
    split
    · trivial
    · refine (Script.uses_perform (hmake directory)).andThen ?_
      intro made
      split
      · trivial
      · split
        · trivial
        next parent _ =>
          refine (ih parent).andThen ?_
          intro around
          split
          · refine Script.Uses.andThen (Script.uses_perform (hmake directory)) ?_
            intro inner
            split
            · trivial
            · exact hthere directory _
          · trivial
      · exact hthere directory _

theorem uses_writeOutput (hwrite : allowed (.write output text)) :
    (writeOutput output text).run.Uses allowed := by
  have hprepare : (prepare output).Uses allowed := by
    rw [prepare]
    split
    · split
      · trivial
      · exact uses_makeWithin hlook hmake _ _
    · trivial
  have hplace : (place output text).run.Uses allowed := by
    refine Attempt.uses_bind (Attempt.uses_perform hwrite) ?_
    intro written
    cases written with
    | ok value => exact Attempt.uses_pure _
    | error fault => exact Attempt.uses_throw _
  rw [writeOutput_eq]
  refine Attempt.uses_bind (Attempt.uses_lift hprepare) ?_
  intro made
  cases made with
  | ok value => exact hplace
  | error fault => exact Attempt.uses_bind (Attempt.uses_throw _) fun _ => hplace

end

theorem uses_one (options : GenerateOptions) (input : Path) :
    (one options input).run.Uses (Asks options input) := by
  refine Attempt.uses_bind ?_ ?_
  · refine Attempt.uses_bind (Attempt.uses_perform rfl) ?_
    intro read
    cases read with
    | ok text => exact Attempt.uses_pure text
    | error fault => exact Attempt.uses_throw _
  · intro text
    refine Attempt.uses_ofExcept_bind ?_
    intro generated hgenerated
    cases hdry : options.dryRun with
    | true => exact Attempt.uses_pure generated
    | false =>
      have hwrite : Asks options input (.write generated.output generated.text) :=
        ⟨hdry, generated, Generated.for_of_ofText hgenerated, rfl, rfl⟩
      have houtput : (writeOutput generated.output generated.text).run.Uses (Asks options input) :=
        uses_writeOutput (fun _ => hdry) (fun _ => hdry) hwrite
      exact Attempt.uses_bind houtput fun _ => Attempt.uses_pure generated

/-! ## Prepared disks -/

theorem prepare_eq {parent : Path} (h : output.parent? = some parent) :
    prepare output = Directories.make parent := by
  rw [prepare, h]
  by_cases hempty : parent.text = ""
  · have hparent : parent = ⟨""⟩ := by
      rcases parent with ⟨text⟩
      exact congrArg Path.mk hempty
    rw [hparent, Directories.make_empty]
    rfl
  · have htext : parent.text.isEmpty = false := by simpa using hempty
    simp [htext]

/-- There is a directory around an output, and its way is that of the directory and then its end. -/
theorem exists_parent (hends : output.EndsIn name) :
    ∃ parent, output.parent? = some parent ∧ prepare output = Directories.make parent ∧
      ∀ disk : Disk, disk.way output = disk.way parent ++ [disk.goal parent] := by
  have hsteps : output.steps ≠ [] := by
    rcases hends.steps with ⟨front, -, hsteps⟩
    simp [hsteps]
  rcases Path.parent?_isSome hsteps with ⟨parent, hparent⟩
  refine ⟨parent, hparent, prepare_eq hparent, ?_⟩
  intro disk
  rcases Path.parent?_spec hparent with ⟨habsolute, -, ⟨-, hnone⟩ | ⟨last, hlast⟩⟩
  · exact absurd hnone hsteps
  · exact Disk.way_of_parent? habsolute hlast disk

/-- What is made for an output lies on its way. -/
theorem grows_prepared (hends : output.EndsIn name) (disk : Disk) :
    disk.Grows (fun _ => False) (· ∈ disk.way output) (prepared disk output) := by
  rcases exists_parent hends with ⟨parent, -, hprepare, hway⟩
  have hmade := Directories.made_makeWithin (Nat.lt_succ_self parent.text.length) disk
  rw [prepared, hprepare]
  refine hmade.grows.mono (fun _ hfile => hfile) ?_
  intro spot hspot
  rw [hway]
  simpa using hspot

/-- Where an output is open, nothing is made for it. -/
theorem on_prepare_of_opens (hends : output.EndsIn name) (hopens : disk.Opens output) :
    (prepare output).on disk = (.ok (), disk) := by
  rcases exists_parent hends with ⟨parent, hparent, hprepare, -⟩
  rw [hprepare]
  by_cases hempty : parent.text = ""
  · exact Directories.on_makeWithin_empty hempty _ disk
  · have hdirectory := (Disk.opens_iff_of_parent? hparent hempty disk).1 hopens
    exact Directories.on_makeWithin_there hdirectory _

theorem prepared_of_opens (hends : output.EndsIn name) (hopens : disk.Opens output) :
    prepared disk output = disk := by
  rw [prepared, on_prepare_of_opens hends hopens]

/-- If the directory of an output cannot be made, the output does not become open. -/
theorem not_opens_of_prepare {fault : FileFault} (hends : output.EndsIn name)
    (h : ((prepare output).on disk).1 = .error fault) : ¬(prepared disk output).Opens output := by
  rcases exists_parent hends with ⟨parent, hparent, hprepare, -⟩
  rw [prepared, hprepare]
  rw [hprepare] at h
  have hmade := Directories.made_makeWithin (Nat.lt_succ_self parent.text.length) disk
  have htext : parent.text ≠ "" := by
    intro hempty
    have hok := congrArg Prod.fst (Directories.on_makeWithin_empty hempty parent.text.length disk)
    exact absurd (h.symm.trans hok) (by simp)
  rw [Disk.opens_iff_of_parent? hparent htext]
  exact hmade.missing fault h

/-- Preparing a disk for an output a second time changes nothing. -/
theorem prepared_prepared (hends : output.EndsIn name) (disk : Disk) :
    prepared (prepared disk output) output = prepared disk output := by
  by_cases hopens : (prepared disk output).Opens output
  · exact prepared_of_opens hends hopens
  · rcases exists_parent hends with ⟨parent, hparent, hprepare, -⟩
    have hlevels := Nat.lt_succ_self parent.text.length
    have hmade := Directories.made_makeWithin hlevels disk
    rcases hran : (Directories.make parent).on disk with ⟨result, after⟩
    have hlevelsRan : (Directories.makeWithin parent (parent.text.length + 1)).on disk =
        (result, after) := hran
    have hafter : prepared disk output = after := by rw [prepared, hprepare, hran]
    rw [hlevelsRan] at hmade
    rw [hafter] at hopens ⊢
    rw [prepared, hprepare]
    cases result with
    | error fault =>
      rcases Directories.on_makeWithin_again hlevels hlevelsRan with ⟨again, hagain⟩
      exact congrArg Prod.snd hagain
    | ok value =>
      rcases hmade.there rfl with hempty | hdirectory
      · exact congrArg Prod.snd (Directories.on_makeWithin_empty hempty _ after)
      · have htext := (Disk.isDirectory?_eq_true_iff.1 hdirectory).1
        exact absurd ((Disk.opens_iff_of_parent? hparent htext after).2 hdirectory) hopens

/-- A document is written exactly where a file can be. -/
theorem on_writeOutput_ok (hends : output.EndsIn name) (text : String)
    (haccepts : (prepared disk output).Accepts output) :
    (writeOutput output text).run.on disk =
      (.ok (), (prepared disk output).put (disk.goal output) (.file (some text))) := by
  have hready : ((prepare output).on disk).1 = .ok () := by
    cases h : ((prepare output).on disk).1 with
    | ok value => rfl
    | error fault => exact absurd haccepts.1 (not_opens_of_prepare hends h)
  have hgoal := (grows_prepared hends disk).goal output
  have hwrite := Disk.write_of_accepts hends haccepts (some text)
  rw [hgoal] at hwrite
  rw [on_writeOutput, hready]
  simp only [on_place, hwrite]

theorem on_writeOutput_error (hends : output.EndsIn name) (text : String)
    (hrefuses : ¬(prepared disk output).Accepts output) :
    ∃ fault : FileFault, (writeOutput output text).run.on disk =
      (.error (.fileWrite output.text fault.text), prepared disk output) := by
  rw [on_writeOutput]
  cases hready : ((prepare output).on disk).1 with
  | error fault => exact ⟨fault, rfl⟩
  | ok value =>
    cases hwrite : (prepared disk output).write output (.file (some text)) with
    | ok after =>
      rcases (Disk.write_eq_ok_iff hends).1 hwrite with ⟨hopens, hfree, -⟩
      exact absurd ⟨hopens, hfree⟩ hrefuses
    | error fault => exact ⟨fault, by simp only [on_place, hwrite]⟩

/-! ## Turns -/

/-- What a turn of the generator makes of the document of an input, on the disk of the turn. -/
inductive Turn (options : GenerateOptions) (disk : Disk) :
    Except Error Generated → Except Error Generated × Disk → Prop where
  | failed (error : Error) : Turn options disk (.error error) (.error error, disk)
  | printed (generated : Generated) (dry : options.dryRun = true) :
      Turn options disk (.ok generated) (.ok generated, disk)
  | written (generated : Generated) (wet : options.dryRun = false)
      (accepts : (prepared disk generated.output).Accepts generated.output) :
      Turn options disk (.ok generated)
        (.ok generated, (prepared disk generated.output).put (disk.goal generated.output)
          (.file (some generated.text)))
  | unwritten (generated : Generated) (fault : FileFault) (wet : options.dryRun = false)
      (refuses : ¬(prepared disk generated.output).Accepts generated.output) :
      Turn options disk (.ok generated)
        (.error (.fileWrite generated.output.text fault.text), prepared disk generated.output)

theorem on_one (options : GenerateOptions) (input : Path) (disk : Disk) :
    (one options input).run.on disk =
      match rendered options disk input with
      | .error error => (.error error, disk)
      | .ok generated =>
        if options.dryRun then (.ok generated, disk)
        else match (writeOutput generated.output generated.text).run.on disk with
          | (.ok (), after) => (.ok generated, after)
          | (.error error, after) => (.error error, after) := by
  have hread : (readInput input).run.on disk =
      ((disk.read input).mapError fun fault => .fileRead input.text fault.text, disk) := by
    rw [readInput, Attempt.on_bind, Attempt.on_perform]
    simp only [Action.run]
    cases disk.read input with
    | ok text => rfl
    | error fault => rfl
  rw [one, rendered, Attempt.on_bind, hread]
  cases disk.read input with
  | error fault => rfl
  | ok text =>
    simp only [Except.mapError, Attempt.on_bind, Attempt.on_ofExcept]
    cases Generated.ofText options input text with
    | error error => rfl
    | ok generated =>
      cases options.dryRun with
      | true => rfl
      | false =>
        simp only [Bool.not_false, if_true, Attempt.on_bind, Bool.false_eq_true, if_false]
        rcases (writeOutput generated.output generated.text).run.on disk with ⟨result, after⟩
        cases result <;> rfl

/-- In a dry run an attempt answers with the document, and leaves everything as it is. -/
theorem on_one_of_dry (hdry : options.dryRun = true) (input : Path) (disk : Disk) :
    (one options input).run.on disk = (rendered options disk input, disk) := by
  rw [on_one]
  cases rendered options disk input with
  | error error => rfl
  | ok generated => exact if_pos hdry

/-- An attempt at an input is a turn with its document. -/
theorem one_turn (options : GenerateOptions) (disk : Disk) (input : Path) :
    Turn options disk (rendered options disk input) ((one options input).run.on disk) := by
  rw [on_one]
  cases hrendered : rendered options disk input with
  | error error => exact .failed error
  | ok generated =>
    rcases (for_of_rendered hrendered).endsIn with ⟨name, hends, -⟩
    cases hdry : options.dryRun with
    | true => exact .printed generated hdry
    | false =>
      simp only [Bool.false_eq_true, if_false]
      by_cases haccepts : (prepared disk generated.output).Accepts generated.output
      · rw [on_writeOutput_ok hends generated.text haccepts]
        exact .written generated hdry haccepts
      · rcases on_writeOutput_error hends generated.text haccepts with ⟨fault, hwrite⟩
        rw [hwrite]
        exact .unwritten generated fault hdry haccepts

/-- A document changes the disk at its output and on the way there, and nowhere else. -/
theorem Turn.grows {document : Except Error Generated} {ran : Except Error Generated × Disk}
    (h : Turn options disk document ran)
    (hfor : ∀ generated, document = .ok generated → Generated.For options input generated) :
    disk.Grows (fun spot => ∃ generated, document = .ok generated ∧ spot = disk.goal generated.output)
      (fun spot => ∃ generated, document = .ok generated ∧ spot ∈ disk.way generated.output) ran.2 := by
  have hprepared : ∀ generated, document = .ok generated →
      disk.Grows (fun _ => False)
        (fun spot => ∃ generated, document = .ok generated ∧ spot ∈ disk.way generated.output)
        (prepared disk generated.output) := by
    intro generated hdocument
    rcases (hfor generated hdocument).endsIn with ⟨name, hends, -⟩
    exact (grows_prepared hends disk).mono (fun _ hfile => hfile)
      fun spot hspot => ⟨generated, hdocument, hspot⟩
  cases h with
  | failed error => exact .refl disk
  | printed generated dry => exact .refl disk
  | unwritten generated fault wet refuses =>
    exact (hprepared generated rfl).mono (fun _ hfile => hfile.elim) fun _ hspot => hspot
  | written generated wet accepts =>
    have hbetween := hprepared generated rfl
    rcases (hfor generated rfl).endsIn with ⟨name, hends, -⟩
    have hgoal := hbetween.goal generated.output
    have hwrite := Disk.write_of_accepts hends accepts (some generated.text)
    rw [hgoal] at hwrite
    have hgrows := Disk.grows_write hends hwrite
    rw [hgoal] at hgrows
    refine (hbetween.mono (fun _ hfile => hfile.elim) fun _ hspot => hspot).trans ?_
    exact hgrows.mono (fun spot hspot => ⟨generated, rfl, hspot⟩) fun _ hspot => hspot.elim

end Generate

end PipelineTree
