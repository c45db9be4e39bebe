import PipelineTree.Proofs.Command.Documents

/-!
# Repetition — a batch taken a second time

All documents of a batch go to one directory, or each of them beside its input.  So the directory is made, as
far as it can be, in the first turn that has a document, and from then on documents are written, or none of
them can be.  Taken a second time, the batch comes to the same documents, and writes over each file what is
there already.
-/

namespace PipelineTree

namespace Generate

variable {options : GenerateOptions} {verbose : Bool} {disk start ground now : Disk}
  {workspace other : Workspace} {batch rest : List Path} {input : Path} {generated : Generated}

/-! ## What a batch comes to -/

/-- The turns of a batch fail, or they have documents. -/
theorem countP_fails (options : GenerateOptions) (verbose : Bool) (workspace : Workspace)
    (batch : List Path) :
    (turns options verbose workspace batch).countP (fails options) +
      (documentsOf options verbose workspace batch).length = batch.length := by
  have hdocument : ∀ turn : Path × Workspace,
      (document? options turn).isSome = !fails options turn := by
    intro turn
    rw [document?, fails, Bool.not_not]
    cases ((one options turn.1).run.run turn.2).1 <;> rfl
  have hlength : (turns options verbose workspace batch).length = batch.length := by
    rw [← List.length_map Prod.fst, fst_turns]
  have hfound : (documentsOf options verbose workspace batch).length =
      (turns options verbose workspace batch).countP fun turn => !fails options turn := by
    rw [documentsOf, List.length_filterMap_eq_countP]
    simp only [hdocument]
  rw [hfound, ← hlength, List.length_eq_countP_add_countP (fails options)]
  simp only [Bool.not_eq_true, Bool.decide_eq_false]

/-- The result of a batch tells how many documents it has. -/
theorem run_all_fst (options : GenerateOptions) (verbose : Bool) (workspace : Workspace)
    (batch : List Path) :
    ((all options verbose batch).run.run workspace).1 =
      let failed := batch.length - (documentsOf options verbose workspace batch).length
      if failed = 0 then .ok batch.length else .error (.batchFailed failed batch.length) := by
  have hcount := countP_fails options verbose workspace batch
  have hfailed : batch.length - (documentsOf options verbose workspace batch).length =
      (turns options verbose workspace batch).countP (fails options) := by omega
  rw [run_all, hfailed]

/-- What a batch comes to does not depend on what was printed before. -/
theorem turns_of_disk (options : GenerateOptions) (verbose : Bool) (batch : List Path)
    (h : other.disk = workspace.disk) :
    documentsOf options verbose other batch = documentsOf options verbose workspace batch ∧
      (afterTurns options verbose other batch).disk =
        (afterTurns options verbose workspace batch).disk := by
  induction batch generalizing other workspace with
  | nil => exact ⟨rfl, h⟩
  | cons input batch ih =>
    have hnext : ((tryOne options verbose input).run other).2.disk =
        ((tryOne options verbose input).run workspace).2.disk := by
      rw [run_tryOne_disk, run_tryOne_disk, h]
    rcases ih hnext with ⟨hdocuments, hafter⟩
    refine ⟨?_, hafter⟩
    rw [documentsOf_cons, documentsOf_cons, h, hdocuments]

/-- Through the turns of a batch, files are only written at marked spots. -/
theorem grows_turn (options : GenerateOptions) (verbose : Bool) (workspace : Workspace)
    (batch : List Path) :
    ∀ turn ∈ turns options verbose workspace batch,
      workspace.disk.Grows Spot.Marked (fun _ => True) turn.2.disk := by
  induction batch generalizing workspace with
  | nil => exact fun turn hturn => absurd hturn (by simp [turns])
  | cons input batch ih =>
    intro turn hturn
    rcases List.mem_cons.1 hturn with rfl | hlater
    · exact .refl workspace.disk
    · have hfirst := grows_marked options input workspace.disk
      rw [← run_tryOne_disk options verbose input workspace] at hfirst
      exact hfirst.trans (ih _ turn hlater)

/-! ## Where documents are sent -/

/-- A document that some inputs have. -/
def Sent (options : GenerateOptions) (start : Disk) (batch : List Path) (generated : Generated) : Prop :=
  ∃ input ∈ batch, rendered options start input = .ok generated

theorem Sent.endsIn (h : Sent options start batch generated) :
    ∃ name, generated.output.EndsIn name := by
  rcases h with ⟨input, -, hrendered⟩
  rcases (for_of_rendered hrendered).endsIn with ⟨name, hends, -⟩
  exact ⟨name, hends⟩

/-- A document that goes beside its input goes where the input is. -/
theorem opens_of_beside (hbeside : options.outDir = none)
    (hinput : start.holdsInput input = true) (hrendered : rendered options start input = .ok generated) :
    start.Opens generated.output := by
  rcases Disk.holdsInput_iff.1 hinput with ⟨text, name, hnames, hends, -⟩
  rcases (for_of_rendered hrendered).place with ⟨extension, hplain, houtput⟩
  rcases exists_parent hends with ⟨parent, hparent, -, hway⟩
  have hfolder : input.folder = parent := by
    rw [Path.folder, Path.fileName?_of_endsIn hends, hparent]
    rfl
  have hjoin : generated.output = parent.join (input.outputName extension) := by
    rw [houtput, hbeside, Path.output_eq_join, Option.getD_none, hfolder]
  have hsame : start.way generated.output = start.way input := by
    rw [hjoin, Disk.way_join (Path.isName_outputName hplain), hway]
  rw [Disk.Opens, hsame]
  exact hnames.2.1

/-- Documents that go to one directory have one way there. -/
theorem way_of_directory {directory : Path} {other : Generated} {batch : List Path}
    (hdirectory : options.outDir = some directory) (h : Sent options start batch generated)
    (hother : Sent options start batch other) :
    prepare other.output = prepare generated.output ∧
      ∀ disk : Disk, disk.way other.output = disk.way generated.output := by
  have hjoin : ∀ {generated : Generated}, Sent options start batch generated →
      ∃ name : String, Path.IsName name.toList ∧ generated.output = directory.join name := by
    rintro generated ⟨input, -, hrendered⟩
    rcases (for_of_rendered hrendered).place with ⟨extension, hplain, houtput⟩
    refine ⟨input.outputName extension, Path.isName_outputName hplain, ?_⟩
    rw [houtput, hdirectory, Path.output_eq_join]
    rfl
  rcases hjoin h with ⟨name, hname, houtput⟩
  rcases hjoin hother with ⟨otherName, hotherName, hotherOutput⟩
  rw [houtput, hotherOutput]
  constructor
  · rw [prepare, prepare, Path.parent?_join hotherName hname]
  · intro disk
    rw [Disk.way_join hotherName, Disk.way_join hname]

/-- What is made for the documents of a batch is the same for all of them, and opens all of them or none. -/
structure Grounded (options : GenerateOptions) (start : Disk) (batch : List Path) (ground : Disk) :
    Prop where
  prepared : ∀ generated, Sent options start batch generated → prepared start generated.output = ground
  open_or_closed : (∀ generated, Sent options start batch generated → ground.Opens generated.output) ∨
    ∀ generated, Sent options start batch generated → ¬ground.Opens generated.output

theorem exists_grounded (options : GenerateOptions)
    (hinputs : ∀ input ∈ batch, start.holdsInput input = true) :
    ∃ ground, Grounded options start batch ground := by
  by_cases hsome : ∃ generated, Sent options start batch generated
  · rcases hsome with ⟨generated, hsent⟩
    cases hdirectory : options.outDir with
    | none =>
      have hopens : ∀ generated, Sent options start batch generated → start.Opens generated.output := by
        rintro generated ⟨input, hmem, hrendered⟩
        exact opens_of_beside hdirectory (hinputs input hmem) hrendered
      refine ⟨start, ?_, .inl hopens⟩
      intro other hother
      rcases hother.endsIn with ⟨name, hends⟩
      exact prepared_of_opens hends (hopens other hother)
    | some directory =>
      have hsame : ∀ other, Sent options start batch other →
          prepare other.output = prepare generated.output ∧
            ∀ disk : Disk, disk.way other.output = disk.way generated.output :=
        fun other hother => way_of_directory hdirectory hsent hother
      refine ⟨Generate.prepared start generated.output, ?_, ?_⟩
      · intro other hother
        rw [Generate.prepared, (hsame other hother).1]
        rfl
      · by_cases hopens : (Generate.prepared start generated.output).Opens generated.output
        · refine .inl ?_
          intro other hother
          rw [Disk.Opens, (hsame other hother).2]
          exact hopens
        · refine .inr ?_
          intro other hother
          rw [Disk.Opens, (hsame other hother).2]
          exact hopens
  · exact ⟨start, fun generated hsent => absurd ⟨generated, hsent⟩ hsome,
      .inl fun generated hsent => absurd ⟨generated, hsent⟩ hsome⟩

/-! ## Turns on prepared ground -/

/-- What a file can be written at does not change when files are written. -/
theorem accepts_of_files {path : Path} {files : Spot → Prop} {after : Disk}
    (hgrows : disk.Grows files (fun _ => False) after) (hopens : disk.Opens path) :
    after.Accepts path ↔ disk.Accepts path := by
  have hbecomes := hgrows.becomes (disk.goal path)
  rw [Disk.Accepts, Disk.Accepts, hgrows.goal]
  constructor
  · rintro ⟨-, hfree⟩
    refine ⟨hopens, ?_⟩
    intro hdirectory
    exact hfree (hgrows.directory hdirectory)
  · rintro ⟨-, hfree⟩
    refine ⟨hgrows.opens hopens, ?_⟩
    intro hdirectory
    rw [hdirectory] at hbecomes
    exact hfree (hbecomes.of_directory id)

/-- The document of an input, if it can be written on some ground. -/
def settled (options : GenerateOptions) (start ground : Disk) (input : Path) : Option Generated :=
  match rendered options start input with
  | .ok generated => if ground.face? (ground.goal generated.output) = some .directory then none
      else some generated
  | .error _ => none

/-- On a disk all documents of a batch come to the ground, but for files that were written. -/
structure Poised (options : GenerateOptions) (start ground : Disk) (batch : List Path) (now : Disk) :
    Prop where
  grown : start.Grows Spot.Marked (fun _ => True) now
  ready : ∀ generated, Sent options start batch generated →
    ground.Grows Spot.Marked (fun _ => False) (prepared now generated.output)

theorem Poised.of_grows
    (hopens : ∀ generated, Sent options start batch generated → ground.Opens generated.output)
    (hgrown : start.Grows Spot.Marked (fun _ => True) now)
    (hgrows : ground.Grows Spot.Marked (fun _ => False) now) :
    Poised options start ground batch now := by
  refine ⟨hgrown, ?_⟩
  intro generated hsent
  rcases hsent.endsIn with ⟨name, hends⟩
  rw [prepared_of_opens hends (hgrows.opens (hopens generated hsent))]
  exact hgrows

/-- A document that is written on some ground, where it is marked, leaves the ground but for a marked file. -/
theorem grows_of_written {name : String} (hends : generated.output.EndsIn name)
    (hmarked : ∀ disk : Disk, Spot.Marked (disk.goal generated.output))
    (hready : ground.Grows Spot.Marked (fun _ => False) (prepared now generated.output))
    (haccepts : (prepared now generated.output).Accepts generated.output) :
    ground.Grows Spot.Marked (fun _ => False)
      ((prepared now generated.output).put (now.goal generated.output) (.file (some generated.text))) := by
  have hgoal := (grows_prepared hends now).goal generated.output
  have hwrite := Disk.write_of_accepts hends haccepts (some generated.text)
  have hfile := (Disk.grows_write hends hwrite).mono
    (fun _ hspot => hspot.symm ▸ hmarked (prepared now generated.output)) fun _ hnone => hnone
  rw [hgoal] at hfile
  exact hready.trans hfile

/-- A turn on ground that opens all documents has the document that can be written there. -/
theorem one_of_poised (hwet : options.dryRun = false)
    (hopens : ∀ generated, Sent options start batch generated → ground.Opens generated.output)
    (h : Poised options start ground batch now) (hmem : input ∈ batch)
    (hinput : start.holdsInput input = true) :
    ((one options input).run.on now).1.toOption = settled options start ground input ∧
      Poised options start ground batch ((one options input).run.on now).2 ∧
      ∀ generated, rendered options start input = .ok generated →
        ((one options input).run.on now).2.Opens generated.output := by
  have hsame := rendered_of_grows options h.grown hinput fun _ => id
  have hturn := one_turn options now input
  have hgrown := h.grown.trans (grows_marked options input now)
  rw [hsame] at hturn
  rw [settled]
  cases hrendered : rendered options start input with
  | error error =>
    rw [hrendered] at hturn
    generalize (one options input).run.on now = ran at hturn hgrown ⊢
    cases hturn with
    | failed => exact ⟨rfl, h, fun generated hok => absurd hok (by simp)⟩
  | ok generated =>
    have hsent : Sent options start batch generated := ⟨input, hmem, hrendered⟩
    have hground := hopens generated hsent
    have hready := h.ready generated hsent
    have haccepts := accepts_of_files hready hground
    rcases hsent.endsIn with ⟨name, hends⟩
    rw [hrendered] at hturn
    generalize (one options input).run.on now = ran at hturn hgrown ⊢
    cases hturn with
    | printed _ dry => exact absurd (hwet.symm.trans dry) (by simp)
    | unwritten _ fault wet refuses =>
      have hdirectory : ground.face? (ground.goal generated.output) = some .directory := by
        by_contra hfree
        exact refuses (haccepts.2 ⟨hground, hfree⟩)
      refine ⟨by simp [hdirectory, Except.toOption], .of_grows hopens hgrown hready, ?_⟩
      intro other hok
      exact Except.ok.inj hok ▸ hready.opens hground
    | written _ wet accepts =>
      have hfree := (haccepts.1 accepts).2
      have hnext := grows_of_written hends (for_of_rendered hrendered).marked hready accepts
      refine ⟨by simp [hfree, Except.toOption], .of_grows hopens hgrown hnext, ?_⟩
      intro other hok
      exact Except.ok.inj hok ▸ hnext.opens hground

/-- A batch on ground that opens all documents has those that can be written there. -/
theorem turns_of_poised (verbose : Bool) (hwet : options.dryRun = false)
    (hopens : ∀ generated, Sent options start batch generated → ground.Opens generated.output)
    (h : Poised options start ground batch workspace.disk)
    (hrest : ∀ input ∈ rest, input ∈ batch ∧ start.holdsInput input = true) :
    documentsOf options verbose workspace rest = rest.filterMap (settled options start ground) ∧
      Poised options start ground batch (afterTurns options verbose workspace rest).disk ∧
      ∀ generated, Sent options start rest generated →
        (afterTurns options verbose workspace rest).disk.Opens generated.output := by
  induction rest generalizing workspace with
  | nil =>
    refine ⟨rfl, h, ?_⟩
    rintro generated ⟨input, hmem, -⟩
    exact absurd hmem (by simp)
  | cons input rest ih =>
    rcases hrest input List.mem_cons_self with ⟨hmem, hinput⟩
    rcases one_of_poised hwet hopens h hmem hinput with ⟨hdocument, hnext, hopen⟩
    rw [← run_tryOne_disk options verbose input workspace] at hnext hopen
    rcases ih hnext fun other hother => hrest other (List.mem_cons_of_mem input hother) with
      ⟨hdocuments, hend, hopenRest⟩
    refine ⟨?_, hend, ?_⟩
    · rw [documentsOf_cons, hdocument, hdocuments, List.filterMap_cons]
      cases settled options start ground input <;> rfl
    · rintro generated ⟨other, hother, hrendered⟩
      rcases List.mem_cons.1 hother with rfl | hlater
      · exact (grows_afterTurns options verbose _ rest).opens (hopen generated hrendered)
      · exact hopenRest generated ⟨other, hlater, hrendered⟩

/-- A turn on ground that opens no document has none, and makes what it can. -/
theorem one_of_closed (hwet : options.dryRun = false)
    (hclosed : ∀ generated, Sent options start batch generated → ¬ground.Opens generated.output)
    (hprepared : ∀ generated, Sent options start batch generated →
      prepared now generated.output = ground)
    (hgrown : start.Grows Spot.Marked (fun _ => True) now) (hmem : input ∈ batch)
    (hinput : start.holdsInput input = true) :
    ((one options input).run.on now).1.toOption = none ∧
      (((one options input).run.on now).2 = now ∨ ((one options input).run.on now).2 = ground) := by
  have hsame := rendered_of_grows options hgrown hinput fun _ => id
  have hturn := one_turn options now input
  rw [hsame] at hturn
  cases hrendered : rendered options start input with
  | error error =>
    rw [hrendered] at hturn
    generalize (one options input).run.on now = ran at hturn ⊢
    cases hturn with
    | failed => exact ⟨rfl, .inl rfl⟩
  | ok generated =>
    have hsent : Sent options start batch generated := ⟨input, hmem, hrendered⟩
    rw [hrendered] at hturn
    generalize (one options input).run.on now = ran at hturn ⊢
    cases hturn with
    | printed _ dry => exact absurd (hwet.symm.trans dry) (by simp)
    | unwritten _ fault wet refuses => exact ⟨rfl, .inr (hprepared generated hsent)⟩
    | written _ wet accepts =>
      rw [hprepared generated hsent] at accepts
      exact absurd accepts.1 (hclosed generated hsent)

/-- What was made for a document need not be made again. -/
theorem prepared_of_or {now next : Disk} {path : Path} {name : String} (hends : path.EndsIn name)
    (h : prepared now path = ground) (hnext : next = now ∨ next = ground) : prepared next path = ground := by
  rcases hnext with rfl | rfl
  · exact h
  · have hagain := prepared_prepared hends now
    rwa [h] at hagain

theorem turns_of_closed (verbose : Bool) (hwet : options.dryRun = false)
    (hclosed : ∀ generated, Sent options start batch generated → ¬ground.Opens generated.output)
    (hprepared : ∀ generated, Sent options start batch generated →
      prepared workspace.disk generated.output = ground)
    (hgrown : start.Grows Spot.Marked (fun _ => True) workspace.disk)
    (hrest : ∀ input ∈ rest, input ∈ batch ∧ start.holdsInput input = true) :
    documentsOf options verbose workspace rest = [] ∧
      ((afterTurns options verbose workspace rest).disk = workspace.disk ∨
        (afterTurns options verbose workspace rest).disk = ground) := by
  induction rest generalizing workspace with
  | nil => exact ⟨rfl, .inl rfl⟩
  | cons input rest ih =>
    rcases hrest input List.mem_cons_self with ⟨hmem, hinput⟩
    rcases one_of_closed hwet hclosed hprepared hgrown hmem hinput with ⟨hdocument, hnext⟩
    have hgrownNext := hgrown.trans (grows_marked options input workspace.disk)
    rw [← run_tryOne_disk options verbose input workspace] at hnext hgrownNext
    have hpreparedNext : ∀ generated, Sent options start batch generated →
        prepared ((tryOne options verbose input).run workspace).2.disk generated.output = ground := by
      intro generated hsent
      rcases hsent.endsIn with ⟨name, hends⟩
      exact prepared_of_or hends (hprepared generated hsent) hnext
    rcases ih hpreparedNext hgrownNext
      fun other hother => hrest other (List.mem_cons_of_mem input hother) with ⟨hdocuments, hend⟩
    refine ⟨?_, ?_⟩
    · rw [documentsOf_cons, hdocument, hdocuments]
      rfl
    · rcases hend with hend | hend
      · rcases hnext with hsame | hmade
        · exact .inl (hend.trans hsame)
        · exact .inr (hend.trans hmade)
      · exact .inr hend

/-- In a dry run nothing is written. -/
theorem afterTurns_of_dry (hdry : options.dryRun = true) (verbose : Bool) (workspace : Workspace)
    (batch : List Path) : (afterTurns options verbose workspace batch).disk = workspace.disk := by
  induction batch generalizing workspace with
  | nil => rfl
  | cons input batch ih =>
    have hfirst := congrArg Prod.snd (on_one_of_dry hdry input workspace.disk)
    rw [← run_tryOne_disk options verbose input workspace] at hfirst
    exact (ih _).trans hfirst

/-! ## A batch a second time -/

/-- Where the documents are there already, writing them again changes nothing. -/
theorem Overlay.again {directories : Spot → Prop} {documents : List Generated} {before ended last : Disk}
    (hfirst : Overlay disk directories documents before ended)
    (hsecond : Overlay disk (fun _ => False) documents ended last) (spot : Spot) :
    last.face? spot = ended.face? spot := by
  cases hlast : lastAt disk documents spot with
  | some generated => rw [hfirst.written spot generated hlast, hsecond.written spot generated hlast]
  | none =>
    have hkept := hsecond.kept spot hlast
    generalize ended.face? spot = face at hkept ⊢
    generalize last.face? spot = next at hkept ⊢
    cases hkept with
    | same => rfl
    | written allowed => exact allowed.elim
    | made allowed => exact allowed.elim

/-- A batch that is repeated comes to the same documents, and leaves everything as it is. -/
def BatchRepeats (options : GenerateOptions) (verbose : Bool) (workspace : Workspace) (batch : List Path) :
    Prop :=
  let ended := afterTurns options verbose workspace batch
  documentsOf options verbose ended batch = documentsOf options verbose workspace batch ∧
    ∀ spot, (afterTurns options verbose ended batch).disk.face? spot = ended.disk.face? spot

/-- Where the first run has changed nothing, the second one does the same. -/
theorem batchRepeats_of_disk (h : (afterTurns options verbose workspace batch).disk = workspace.disk) :
    BatchRepeats options verbose workspace batch := by
  rcases turns_of_disk options verbose batch h with ⟨hdocuments, hafter⟩
  exact ⟨hdocuments, fun spot => by rw [hafter]⟩

theorem Grounded.poised (h : Grounded options start batch ground) :
    Poised options start ground batch start := by
  refine ⟨.refl _, ?_⟩
  intro generated hsent
  rw [h.prepared generated hsent]
  exact .refl ground

/-- Once all directories are there, a run only writes files. -/
theorem overlay_files (verbose : Bool) (hwet : options.dryRun = false)
    (hinputs : ∀ input ∈ batch, start.holdsInput input = true)
    (hgrown : start.Grows Spot.Marked (fun _ => True) workspace.disk)
    (hthere : ∀ generated, Sent options start batch generated → workspace.disk.Opens generated.output) :
    Overlay start (fun _ => False) (documentsOf options verbose workspace batch) workspace.disk
      (afterTurns options verbose workspace batch).disk := by
  refine overlay_turns hwet hgrown.location ?_
  intro turn hturn generated hrendered
  have hmem := mem_of_mem_turns hturn
  have hturnGrown := grows_turn options verbose workspace batch turn hturn
  have hinput := rendered_of_grows options (hgrown.trans hturnGrown) (hinputs turn.1 hmem) fun _ => id
  have hsent : Sent options start batch generated := ⟨turn.1, hmem, hinput ▸ hrendered⟩
  rcases hsent.endsIn with ⟨name, hends⟩
  rw [prepared_of_opens hends (hturnGrown.opens (hthere generated hsent))]
  exact .refl _

theorem batchRepeats_of_opens (hwet : options.dryRun = false)
    (hinputs : ∀ input ∈ batch, workspace.disk.holdsInput input = true)
    (hground : Grounded options workspace.disk batch ground)
    (hopens : ∀ generated, Sent options workspace.disk batch generated →
      ground.Opens generated.output) :
    BatchRepeats options verbose workspace batch := by
  have hbatch := fun input hmem => And.intro hmem (hinputs input hmem)
  rcases turns_of_poised verbose hwet hopens hground.poised hbatch with ⟨hdocuments, hended, hthere⟩
  rcases turns_of_poised verbose hwet hopens hended hbatch with ⟨hagain, -, -⟩
  have hsame := hagain.trans hdocuments.symm
  refine ⟨hsame, ?_⟩
  have hfirst := overlay_afterTurns verbose hwet workspace batch
  have hgrown := grows_afterTurns options verbose workspace batch
  have hsecond := overlay_files verbose hwet hinputs hgrown hthere
  rw [hsame] at hsecond
  exact hfirst.again hsecond

theorem batchRepeats_of_closed (hwet : options.dryRun = false)
    (hinputs : ∀ input ∈ batch, workspace.disk.holdsInput input = true)
    (hground : Grounded options workspace.disk batch ground)
    (hclosed : ∀ generated, Sent options workspace.disk batch generated →
      ¬ground.Opens generated.output) :
    BatchRepeats options verbose workspace batch := by
  have hbatch := fun input hmem => And.intro hmem (hinputs input hmem)
  rcases turns_of_closed verbose hwet hclosed hground.prepared (.refl _) hbatch with
    ⟨hdocuments, hsame | hmade⟩
  · exact batchRepeats_of_disk hsame
  · have hprepared : ∀ generated, Sent options workspace.disk batch generated →
        prepared (afterTurns options verbose workspace batch).disk generated.output = ground := by
      intro generated hsent
      rcases hsent.endsIn with ⟨name, hends⟩
      exact prepared_of_or hends (hground.prepared generated hsent) (.inr hmade)
    have hgrown := grows_afterTurns options verbose workspace batch
    rcases turns_of_closed verbose hwet hclosed hprepared hgrown hbatch with ⟨hagain, hend⟩
    refine ⟨hagain.trans hdocuments.symm, ?_⟩
    intro spot
    rcases hend with hend | hend
    · rw [hend]
    · rw [hend, hmade]

theorem afterTurns_again (options : GenerateOptions) (verbose : Bool)
    (hinputs : ∀ input ∈ batch, workspace.disk.holdsInput input = true) :
    BatchRepeats options verbose workspace batch := by
  cases hdry : options.dryRun with
  | true => exact batchRepeats_of_disk (afterTurns_of_dry hdry verbose workspace batch)
  | false =>
    rcases exists_grounded options hinputs with ⟨ground, hground⟩
    rcases hground.open_or_closed with hopens | hclosed
    · exact batchRepeats_of_opens hdry hinputs hground hopens
    · exact batchRepeats_of_closed hdry hinputs hground hclosed

/-- A batch that is run again answers the same, and leaves everything as it is. -/
theorem all_again (options : GenerateOptions) (verbose : Bool) (workspace : Workspace)
    (hinputs : ∀ input ∈ batch, workspace.disk.holdsInput input = true) :
    let first := (all options verbose batch).run.run workspace
    let again := (all options verbose batch).run.run first.2
    again.1 = first.1 ∧ ∀ spot, again.2.disk.face? spot = first.2.disk.face? spot := by
  have hended : ∀ workspace : Workspace,
      ((all options verbose batch).run.run workspace).2 = afterTurns options verbose workspace batch :=
    fun workspace => congrArg Prod.snd (run_all options verbose batch workspace)
  rcases afterTurns_again options verbose hinputs with ⟨hdocuments, hfaces⟩
  dsimp only
  rw [hended, hended, run_all_fst, run_all_fst, hdocuments]
  exact ⟨rfl, hfaces⟩

end Generate

end PipelineTree
