import PipelineTree.Proofs.Command.Batch
import PipelineTree.Proofs.Platform.Parts

/-!
# Documents — what a batch leaves behind

After a batch each spot that was written to holds the last document that was sent there.  So a batch in
which nothing failed has kept all of its documents exactly if no two of them with different texts were sent
to the same spot.
-/

namespace PipelineTree

namespace Generate

variable {options : GenerateOptions} {verbose : Bool} {disk now before between after : Disk}
  {workspace : Workspace} {batch inputs : List Path} {input : Path}
  {documents others : List Generated} {directories : Spot → Prop}

/-! ## The last document at a spot -/

/-- The last one of some documents that go to a spot. -/
def lastAt (disk : Disk) (documents : List Generated) (spot : Spot) : Option Generated :=
  (documents.filter fun generated => disk.goal generated.output == spot).getLast?

theorem lastAt_append (disk : Disk) (documents others : List Generated) (spot : Spot) :
    lastAt disk (documents ++ others) spot =
      (lastAt disk others spot).or (lastAt disk documents spot) := by
  rw [lastAt, List.filter_append, List.getLast?_append]
  rfl

theorem lastAt_mem {spot : Spot} {last : Generated} (h : lastAt disk documents spot = some last) :
    last ∈ documents ∧ disk.goal last.output = spot := by
  have hmem := List.mem_filter.1 (List.mem_of_getLast? h)
  exact ⟨hmem.1, by simpa using hmem.2⟩

theorem exists_lastAt (disk : Disk) {generated : Generated} (h : generated ∈ documents) :
    ∃ last, lastAt disk documents (disk.goal generated.output) = some last := by
  have hmem : generated ∈ documents.filter fun other =>
      disk.goal other.output == disk.goal generated.output :=
    List.mem_filter.2 ⟨h, by simp⟩
  exact Option.isSome_iff_exists.1 (List.getLast?_isSome.2 (List.ne_nil_of_mem hmem))

theorem lastAt_singleton (disk : Disk) (generated : Generated) (spot : Spot) :
    lastAt disk [generated] spot =
      if disk.goal generated.output = spot then some generated else none := by
  by_cases hspot : disk.goal generated.output = spot
  · simp [lastAt, hspot]
  · simp [lastAt, hspot]

/-! ## Written documents -/

/--
One disk comes from another by writing documents, the last one at a spot over those before it, and by making
directories at some other spots.
-/
structure Overlay (disk : Disk) (directories : Spot → Prop) (documents : List Generated)
    (before after : Disk) : Prop where
  location : after.location = before.location
  written : ∀ spot last, lastAt disk documents spot = some last →
    after.face? spot = some (.file (some last.text))
  kept : ∀ spot, lastAt disk documents spot = none →
    Face.Becomes False (directories spot) (before.face? spot) (after.face? spot)

theorem Overlay.of_grows (h : before.Grows (fun _ => False) directories after) :
    Overlay disk directories [] before after :=
  ⟨h.location, fun spot last hlast => absurd hlast (by simp [lastAt]), fun spot _ => h.becomes spot⟩

/-- One document is written, once there is a directory for it. -/
theorem Overlay.of_write {generated : Generated} {name : String} (hends : generated.output.EndsIn name)
    (hlocation : before.location = disk.location)
    (hbetween : before.Grows (fun _ => False) directories between)
    (hwrite : between.write generated.output (.file (some generated.text)) = .ok after) :
    Overlay disk directories [generated] before after := by
  have hgoal : between.goal generated.output = disk.goal generated.output :=
    (hbetween.goal generated.output).trans (Disk.goal_of_location hlocation generated.output)
  rcases Disk.face?_write hends hwrite with ⟨hplace, hfaces⟩
  rw [hgoal] at hfaces
  refine ⟨hplace.trans hbetween.location, ?_, ?_⟩
  · intro spot last hlast
    rw [lastAt_singleton] at hlast
    split at hlast
    next hspot =>
      have hsame : generated = last := Option.some.inj hlast
      rw [hfaces, if_pos hspot.symm, hsame]
    next => exact absurd hlast (by simp)
  · intro spot hnone
    rw [lastAt_singleton] at hnone
    split at hnone
    next => exact absurd hnone (by simp)
    next hspot =>
      rw [hfaces, if_neg fun heq => hspot heq.symm]
      exact hbetween.becomes spot

theorem Overlay.append (hfirst : Overlay disk directories documents before between)
    (hsecond : Overlay disk directories others between after) :
    Overlay disk directories (documents ++ others) before after := by
  refine ⟨hsecond.location.trans hfirst.location, ?_, ?_⟩
  · intro spot last hlast
    rw [lastAt_append] at hlast
    cases hothers : lastAt disk others spot with
    | some other =>
      rw [hothers] at hlast
      have hsame : other = last := Option.some.inj hlast
      exact hsame ▸ hsecond.written spot other hothers
    | none =>
      rw [hothers] at hlast
      have hkept := hsecond.kept spot hothers
      rw [hfirst.written spot last hlast] at hkept
      rcases hkept.file with ⟨text, hface, hsame⟩
      rw [hface, hsame id]
  · intro spot hnone
    rw [lastAt_append, Option.or_eq_none_iff] at hnone
    exact (hfirst.kept spot hnone.2).trans (hsecond.kept spot hnone.1)

/-- The document of an attempt that succeeds. -/
def document? (options : GenerateOptions) (turn : Path × Workspace) : Option Generated :=
  ((one options turn.1).run.run turn.2).1.toOption

/-- The documents of the attempts of a batch that succeed. -/
def documentsOf (options : GenerateOptions) (verbose : Bool) (workspace : Workspace)
    (batch : List Path) : List Generated :=
  (turns options verbose workspace batch).filterMap (document? options)

theorem documentsOf_cons (options : GenerateOptions) (verbose : Bool) (workspace : Workspace)
    (input : Path) (batch : List Path) :
    documentsOf options verbose workspace (input :: batch) =
      ((one options input).run.on workspace.disk).1.toOption.toList ++
        documentsOf options verbose ((tryOne options verbose input).run workspace).2 batch := by
  have hdocument : document? options (input, workspace) =
      ((one options input).run.on workspace.disk).1.toOption := by
    rw [document?, Script.run_fst]
  rw [documentsOf, turns, List.filterMap_cons, hdocument]
  cases ((one options input).run.on workspace.disk).1.toOption <;> rfl

/-- A turn writes its document, if that succeeds, and nothing else. -/
theorem overlay_one (hwet : options.dryRun = false) (hlocation : now.location = disk.location)
    (hprepared : ∀ generated, rendered options now input = .ok generated →
      now.Grows (fun _ => False) directories (prepared now generated.output)) :
    Overlay disk directories ((one options input).run.on now).1.toOption.toList now
      ((one options input).run.on now).2 := by
  have hturn := one_turn options now input
  cases hrendered : rendered options now input with
  | error error =>
    rw [hrendered] at hturn
    generalize (one options input).run.on now = ran at hturn ⊢
    cases hturn with
    | failed => exact .of_grows (.refl now)
  | ok generated =>
    rcases (for_of_rendered hrendered).endsIn with ⟨name, hends, -⟩
    have hbetween := hprepared generated hrendered
    rw [hrendered] at hturn
    generalize (one options input).run.on now = ran at hturn ⊢
    cases hturn with
    | printed _ dry => exact absurd (hwet.symm.trans dry) (by simp)
    | unwritten _ fault wet refuses => exact .of_grows hbetween
    | written _ wet accepts =>
      have hwrite := Disk.write_of_accepts hends accepts (some generated.text)
      rw [hbetween.goal] at hwrite
      exact .of_write hends hlocation hbetween hwrite

/-- A batch writes the documents of the attempts that succeed, and nothing else. -/
theorem overlay_turns (hwet : options.dryRun = false)
    (hlocation : workspace.disk.location = disk.location)
    (hprepared : ∀ turn ∈ turns options verbose workspace batch, ∀ generated,
      rendered options turn.2.disk turn.1 = .ok generated →
        turn.2.disk.Grows (fun _ => False) directories (prepared turn.2.disk generated.output)) :
    Overlay disk directories (documentsOf options verbose workspace batch) workspace.disk
      (afterTurns options verbose workspace batch).disk := by
  induction batch generalizing workspace with
  | nil => exact .of_grows (.refl workspace.disk)
  | cons input batch ih =>
    have hfirst := overlay_one hwet hlocation (hprepared (input, workspace) List.mem_cons_self)
    have hnextLocation := hfirst.location.trans hlocation
    rw [← run_tryOne_disk options verbose input workspace] at hfirst hnextLocation
    have hrest := ih hnextLocation fun turn hturn => hprepared turn (List.mem_cons_of_mem _ hturn)
    rw [documentsOf_cons]
    exact hfirst.append hrest

/-- Before a document is written, only directories are made for it. -/
theorem grows_prepared_of_rendered {generated : Generated}
    (h : rendered options now input = .ok generated) :
    now.Grows (fun _ => False) (fun _ => True) (prepared now generated.output) := by
  rcases (for_of_rendered h).endsIn with ⟨name, hends, -⟩
  exact (grows_prepared hends now).mono (fun _ hfile => hfile) fun _ _ => trivial

theorem overlay_afterTurns (verbose : Bool) (hwet : options.dryRun = false) (workspace : Workspace)
    (batch : List Path) :
    Overlay workspace.disk (fun _ => True) (documentsOf options verbose workspace batch) workspace.disk
      (afterTurns options verbose workspace batch).disk :=
  overlay_turns hwet rfl fun _ _ _ => grows_prepared_of_rendered

/-- Whatever a turn does, files are only written at marked spots. -/
theorem grows_marked (options : GenerateOptions) (input : Path) (now : Disk) :
    now.Grows Spot.Marked (fun _ => True) ((one options input).run.on now).2 := by
  have hgrows := (one_turn options now input).grows fun generated hgenerated =>
    for_of_rendered hgenerated
  refine hgrows.mono ?_ fun _ _ => trivial
  rintro spot ⟨generated, hgenerated, rfl⟩
  exact (for_of_rendered hgenerated).marked now

theorem grows_afterTurns (options : GenerateOptions) (verbose : Bool) (workspace : Workspace)
    (batch : List Path) :
    workspace.disk.Grows Spot.Marked (fun _ => True)
      (afterTurns options verbose workspace batch).disk := by
  induction batch generalizing workspace with
  | nil => exact .refl workspace.disk
  | cons input batch ih =>
    have hfirst := grows_marked options input workspace.disk
    rw [← run_tryOne_disk options verbose input workspace] at hfirst
    exact hfirst.trans (ih _)

/-- A document that was written stands in a directory. -/
theorem opens_of_one {generated : Generated} (hwet : options.dryRun = false)
    (h : ((one options input).run.on now).1 = .ok generated) :
    ((one options input).run.on now).2.Opens generated.output := by
  have hturn := one_turn options now input
  generalize hdocument : rendered options now input = document at hturn
  generalize (one options input).run.on now = ran at hturn h ⊢
  cases hturn with
  | failed error => exact absurd h (by simp)
  | printed _ dry => exact absurd (hwet.symm.trans dry) (by simp)
  | unwritten _ fault wet refuses => exact absurd h (by simp)
  | written written wet accepts =>
    have hsame : written = generated := Except.ok.inj h
    rcases (for_of_rendered hdocument).endsIn with ⟨name, hends, -⟩
    have hgoal := (grows_prepared hends now).goal written.output
    have hwrite := Disk.write_of_accepts hends accepts (some written.text)
    rw [hgoal] at hwrite
    rw [← hsame]
    exact (Disk.grows_write hends hwrite).opens accepts.1

theorem opens_of_mem_documentsOf {generated : Generated} (hwet : options.dryRun = false)
    (h : generated ∈ documentsOf options verbose workspace batch) :
    (afterTurns options verbose workspace batch).disk.Opens generated.output := by
  induction batch generalizing workspace with
  | nil => exact absurd h (by simp [documentsOf, turns])
  | cons input batch ih =>
    rcases List.mem_filterMap.1 h with ⟨turn, hturn, hdocument⟩
    rcases List.mem_cons.1 hturn with rfl | hlater
    · have hresult : ((one options input).run.on workspace.disk).1 = .ok generated := by
        rw [document?, Script.run_fst] at hdocument
        cases hran : ((one options input).run.on workspace.disk).1 with
        | error error => simp [hran, Except.toOption] at hdocument
        | ok value => simpa [hran, Except.toOption] using hdocument
      have hopens := opens_of_one hwet hresult
      rw [← run_tryOne_disk options verbose input workspace] at hopens
      exact (grows_afterTurns options verbose _ batch).opens hopens
    · exact ih (List.mem_filterMap.2 ⟨turn, hlater, hdocument⟩)

/-! ## Batches without failures -/

/-- Where nothing failed, every input has made its document. -/
theorem forall₂_documentsOf {start : Disk}
    (hinTurn : ∀ turn ∈ turns options verbose workspace batch,
      Follows options (rendered options start turn.1) turn.2.disk
        ((one options turn.1).run.run turn.2))
    (hnone : ∀ turn ∈ turns options verbose workspace batch, fails options turn = false) :
    List.Forall₂ (fun input generated => rendered options start input = .ok generated) batch
      (documentsOf options verbose workspace batch) := by
  induction batch generalizing workspace with
  | nil => exact .nil
  | cons input batch ih =>
    have hfirst := hinTurn (input, workspace) List.mem_cons_self
    have hok := hnone (input, workspace) List.mem_cons_self
    have hrest := ih (fun turn hturn => hinTurn turn (List.mem_cons_of_mem _ hturn))
      fun turn hturn => hnone turn (List.mem_cons_of_mem _ hturn)
    cases hresult : ((one options input).run.run workspace).1 with
    | error error => simp [fails, hresult, Except.isOk, Except.toBool] at hok
    | ok generated =>
      have hdocument : document? options (input, workspace) = some generated := by
        simp [document?, hresult, Except.toOption]
      have hrendered : rendered options start input = .ok generated := by
        cases hstart : rendered options start input with
        | error error =>
          simp only [Follows, hstart, hresult] at hfirst
          exact absurd hfirst.1 (by simp)
        | ok other =>
          simp only [Follows, hstart, hresult] at hfirst
          rcases hfirst with hsame | ⟨-, fault, hfault⟩
          · exact hsame.symm
          · exact absurd hfault (by simp)
      rw [documentsOf, turns, List.filterMap_cons, hdocument]
      exact .cons hrendered hrest

/-- Only a batch in which no attempt failed answers with a number, which is that of its inputs. -/
theorem of_all_ok {count : Nat} {ended : Workspace}
    (h : (all options verbose inputs).run.run workspace = (.ok count, ended)) :
    count = inputs.length ∧ afterTurns options verbose workspace inputs = ended ∧
      ∀ turn ∈ turns options verbose workspace inputs, fails options turn = false := by
  rw [run_all] at h
  rcases Prod.mk.inj h with ⟨hresult, hended⟩
  have hzero : (turns options verbose workspace inputs).countP (fails options) = 0 := by
    by_contra hsome
    rw [if_neg hsome] at hresult
    exact absurd hresult (by simp)
  rw [if_pos hzero] at hresult
  refine ⟨(Except.ok.inj hresult).symm, hended, ?_⟩
  intro turn hturn
  simpa using List.countP_eq_zero.1 hzero turn hturn

/-- Where a document was sent, the last one that was sent there can be read. -/
theorem Overlay.read {generated : Generated} {name : String}
    (h : Overlay disk directories documents disk after) (hmem : generated ∈ documents)
    (hends : generated.output.EndsIn name) (hopens : after.Opens generated.output) :
    ∃ last, lastAt disk documents (disk.goal generated.output) = some last ∧
      after.read generated.output = .ok last.text := by
  rcases exists_lastAt disk hmem with ⟨last, hlast⟩
  have hface := h.written _ last hlast
  rw [← Disk.goal_of_location h.location generated.output] at hface
  have hnames : after.NamesFile generated.output (some last.text) :=
    ⟨hends.text_ne_empty, hopens, hface, hends.endsInStep⟩
  exact ⟨last, hlast, hnames.read⟩

/-- If each output holds the last document, then all hold their own if those at one spot have one text. -/
theorem kept_iff_agree
    (hread : ∀ generated ∈ documents, ∃ last,
      lastAt disk documents (disk.goal generated.output) = some last ∧
        after.read generated.output = .ok last.text) :
    (∀ generated ∈ documents, after.read generated.output = .ok generated.text) ↔
      ∀ first ∈ documents, ∀ second ∈ documents,
        disk.goal first.output = disk.goal second.output → first.text = second.text := by
  constructor
  · intro hkept first hfirst second hsecond hplace
    rcases hread first hfirst with ⟨last, hlast, hfirstRead⟩
    rcases hread second hsecond with ⟨other, hother, hsecondRead⟩
    have hsame : last = other := by
      rw [hplace, hother] at hlast
      exact (Option.some.inj hlast).symm
    have hfirstText := Except.ok.inj ((hkept first hfirst).symm.trans hfirstRead)
    have hsecondText := Except.ok.inj ((hkept second hsecond).symm.trans hsecondRead)
    rw [hfirstText, hsecondText, hsame]
  · intro hagree generated hmem
    rcases hread generated hmem with ⟨last, hlast, hgeneratedRead⟩
    have hlastMem := lastAt_mem hlast
    rw [hgeneratedRead, hagree last hlastMem.1 generated hmem hlastMem.2]

/--
After a batch of resolved inputs in which nothing failed, each output holds the last document that was sent
to its spot.  So all documents are kept exactly if those that were sent to one spot have one text.
-/
theorem all_documents {patterns : List String} {base : Path} {count : Nat} {ended : Workspace}
    (hresolved : ((Inputs.resolve patterns base).run.run workspace).1 = .ok inputs)
    (hwet : options.dryRun = false)
    (hran : (all options verbose inputs).run.run workspace = (.ok count, ended)) :
    count = inputs.length ∧ ∃ documents : List Generated,
      List.Forall₂ (fun input generated => rendered options workspace.disk input = .ok generated)
        inputs documents ∧
      (∀ generated ∈ documents, ∃ last,
        lastAt workspace.disk documents (workspace.disk.goal generated.output) = some last ∧
          ended.disk.read generated.output = .ok last.text) ∧
      ((∀ generated ∈ documents, ended.disk.read generated.output = .ok generated.text) ↔
        ∀ first ∈ documents, ∀ second ∈ documents,
          workspace.disk.goal first.output = workspace.disk.goal second.output →
            first.text = second.text) := by
  have hinputs := Inputs.holdsInput_of_resolve hresolved
  rcases of_all_ok hran with ⟨hcount, rfl, hnone⟩
  let documents := documentsOf options verbose workspace inputs
  have hdocuments : List.Forall₂
      (fun input generated => rendered options workspace.disk input = .ok generated) inputs documents :=
    forall₂_documentsOf (turns_follow options verbose hinputs) hnone
  have hoverlay := overlay_afterTurns verbose hwet workspace inputs
  have hread : ∀ generated ∈ documents, ∃ last,
      lastAt workspace.disk documents (workspace.disk.goal generated.output) = some last ∧
        (afterTurns options verbose workspace inputs).disk.read generated.output = .ok last.text := by
    intro generated hmem
    rcases exists_of_mem_right hdocuments hmem with ⟨input, -, hrendered⟩
    rcases (for_of_rendered hrendered).endsIn with ⟨name, hends, -⟩
    exact hoverlay.read hmem hends (opens_of_mem_documentsOf hwet hmem)
  exact ⟨hcount, documents, hdocuments, hread, kept_iff_agree hread⟩

/-- A pipeline of one step, written as JSON and, with another step, as YAML. -/
def twinWorkspace : Workspace :=
  ⟨⟨.directory
      [("ci.json", .file (some
        "\x7b\"root\": \x7b\"azure.pipeline\": \x7b\"children\": \x7b\"azure.step\": \x7b\"script\": \"make\"\x7d\x7d\x7d\x7d\x7d")),
       ("ci.yaml", .file (some
        "root: \x7bazure.pipeline: \x7bchildren: \x7bazure.step: \x7bscript: make test\x7d\x7d\x7d\x7d\n"))], []⟩, []⟩

def twins : List Path := [⟨"/ci.json"⟩, ⟨"/ci.yaml"⟩]

theorem resolve_twins :
    ((Inputs.resolve ["ci.json", "ci.yaml"] ⟨"/"⟩).run.run twinWorkspace).1 = .ok twins := by
  have hjson : Search.ofText? "/ci.json" =
      some ⟨⟨"/"⟩, [Pattern.literal "ci.json".toList], false⟩ := by cbv
  have hyaml : Search.ofText? "/ci.yaml" =
      some ⟨⟨"/"⟩, [Pattern.literal "ci.yaml".toList], false⟩ := by cbv
  have hjsonInputs : Inputs.inputsOf twinWorkspace.disk ⟨"/"⟩ "ci.json" = .ok [⟨"/ci.json"⟩] :=
    Inputs.inputsOf_of_found (by decide) hjson (by decide) (by decide)
  have hyamlInputs : Inputs.inputsOf twinWorkspace.disk ⟨"/"⟩ "ci.yaml" = .ok [⟨"/ci.yaml"⟩] :=
    Inputs.inputsOf_of_found (by decide) hyaml (by decide) (by decide)
  have hsorted : Inputs.insertAll [⟨"/ci.yaml"⟩] (Inputs.insertAll [⟨"/ci.json"⟩] []) = twins := by
    decide
  rw [Script.run_fst, Inputs.on_resolve, Inputs.resolved, hjsonInputs, Run.ok_bind, Inputs.resolved,
    hyamlInputs, Run.ok_bind, Inputs.resolved, hsorted]

theorem outcome_all_twins :
    ((all plainOptions false twins).run.run twinWorkspace).1.toOption = some 2 ∧
      (((all plainOptions false twins).run.run twinWorkspace).2.disk.read
        ⟨"/ci.generated.yaml"⟩).toOption = some "steps:\n- script: make test\n" := by
  decide +kernel

theorem all_twins :
    ∃ ended, (all plainOptions false twins).run.run twinWorkspace = (.ok 2, ended) := by
  have hcount := outcome_all_twins.1
  cases hran : (all plainOptions false twins).run.run twinWorkspace with
  | mk result ended =>
    rw [hran] at hcount
    cases result with
    | error error => simp [Except.toOption] at hcount
    | ok count =>
      have hsame : count = 2 := by simpa [Except.toOption] using hcount
      exact ⟨ended, by rw [hsame]⟩

theorem all_documents_twins :
    ∃ ended, (all plainOptions false twins).run.run twinWorkspace = (.ok 2, ended) ∧
      ∃ documents : List Generated,
        List.Forall₂ (fun input generated =>
          rendered plainOptions twinWorkspace.disk input = .ok generated) twins documents ∧
        ((∀ generated ∈ documents, ended.disk.read generated.output = .ok generated.text) ↔
          ∀ first ∈ documents, ∀ second ∈ documents,
            twinWorkspace.disk.goal first.output = twinWorkspace.disk.goal second.output →
              first.text = second.text) := by
  rcases all_twins with ⟨ended, hran⟩
  rcases all_documents resolve_twins rfl hran with ⟨-, documents, hdocuments, -, hkept⟩
  exact ⟨ended, hran, documents, hdocuments, hkept⟩

/-- The document of the first of two inputs is lost, although both are reported as generated. -/
theorem twin_document_lost :
    ((Inputs.resolve ["ci.json", "ci.yaml"] ⟨"/"⟩).run.run twinWorkspace).1 = .ok twins ∧
      ((all plainOptions false twins).run.run twinWorkspace).1.toOption = some 2 ∧
      (rendered plainOptions twinWorkspace.disk ⟨"/ci.json"⟩).toOption =
        some ⟨⟨"/ci.json"⟩, ⟨"/ci.generated.yaml"⟩, "azure", "steps:\n- script: make\n"⟩ ∧
      (((all plainOptions false twins).run.run twinWorkspace).2.disk.read
        ⟨"/ci.generated.yaml"⟩).toOption = some "steps:\n- script: make test\n" := by
  exact ⟨resolve_twins, outcome_all_twins.1, by decide +kernel, outcome_all_twins.2⟩

end Generate

end PipelineTree
