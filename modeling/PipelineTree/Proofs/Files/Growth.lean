import PipelineTree.Files.Directories
import PipelineTree.Proofs.Files.Answers
import PipelineTree.Proofs.Files.Effects

/-!
# Growth — what may become of a disk

A disk grows when files are written at some spots and directories are made at others: no directory goes
away, no file becomes a directory, and everywhere else all is as before.  Making a directory with those
around it only makes directories on the way of its path.  It succeeds exactly if the path names a directory
afterwards, and what it could not do it cannot do a second time.
-/

namespace PipelineTree

/-! ## Growing disks -/

/-- What may become of what stands at a spot where files may be written, or a directory made. -/
inductive Face.Becomes (files directories : Prop) : Option Face → Option Face → Prop where
  | same (face : Option Face) : Becomes files directories face face
  | written {face : Option Face} (allowed : files) (free : face ≠ some .directory)
      (text : Option String) : Becomes files directories face (some (.file text))
  | made (allowed : directories) : Becomes files directories none (some .directory)

/-- One disk comes from another by writing files at some spots and making directories at others. -/
structure Disk.Grows (files directories : Spot → Prop) (before after : Disk) : Prop where
  location : after.location = before.location
  becomes : ∀ spot, Face.Becomes (files spot) (directories spot) (before.face? spot)
    (after.face? spot)

namespace Face.Becomes

variable {files directories : Prop} {face next : Option Face}

theorem trans {last : Option Face} (hfirst : Becomes files directories face next)
    (hsecond : Becomes files directories next last) : Becomes files directories face last := by
  cases hfirst with
  | same => exact hsecond
  | written allowed free text =>
    cases hsecond with
    | same => exact .written allowed free text
    | written _ _ text' => exact .written allowed free text'
  | made allowed =>
    cases hsecond with
    | same => exact .made allowed
    | written _ free => exact absurd rfl free

theorem mono {files' directories' : Prop} (h : Becomes files directories face next)
    (hfiles : files → files') (hdirectories : directories → directories') :
    Becomes files' directories' face next := by
  cases h with
  | same => exact .same face
  | written allowed free text => exact .written (hfiles allowed) free text
  | made allowed => exact .made (hdirectories allowed)

theorem directory (h : Becomes files directories (some .directory) next) :
    next = some .directory := by
  cases h with
  | same => rfl
  | written _ free => exact absurd rfl free

theorem file {text : Option String} (h : Becomes files directories (some (.file text)) next) :
    ∃ text', next = some (.file text') ∧ (¬files → text' = text) := by
  cases h with
  | same => exact ⟨text, rfl, fun _ => rfl⟩
  | written allowed _ text' => exact ⟨text', rfl, fun hnot => absurd allowed hnot⟩

/-- Where no file may be written, a file was there before. -/
theorem of_file {text : Option String} (h : Becomes files directories face (some (.file text)))
    (hnot : ¬files) : face = some (.file text) := by
  cases h with
  | same => rfl
  | written allowed => exact absurd allowed hnot

/-- Where no directory may be made, a directory was there before. -/
theorem of_directory (h : Becomes files directories face (some .directory)) (hnot : ¬directories) :
    face = some .directory := by
  cases h with
  | same => rfl
  | made allowed => exact absurd allowed hnot

end Face.Becomes

namespace Disk

variable {files directories : Spot → Prop} {before after last : Disk} {path : Path}

namespace Grows

theorem refl (disk : Disk) : Grows files directories disk disk := ⟨rfl, fun _ => .same _⟩

theorem trans (hfirst : Grows files directories before after)
    (hsecond : Grows files directories after last) : Grows files directories before last :=
  ⟨hsecond.location.trans hfirst.location,
    fun spot => (hfirst.becomes spot).trans (hsecond.becomes spot)⟩

theorem mono {files' directories' : Spot → Prop} (h : Grows files directories before after)
    (hfiles : ∀ spot, files spot → files' spot)
    (hdirectories : ∀ spot, directories spot → directories' spot) :
    Grows files' directories' before after :=
  ⟨h.location, fun spot => (h.becomes spot).mono (hfiles spot) (hdirectories spot)⟩

theorem directory (h : Grows files directories before after) {spot : Spot}
    (hface : before.face? spot = some .directory) : after.face? spot = some .directory := by
  have hbecomes := h.becomes spot
  rw [hface] at hbecomes
  exact hbecomes.directory

theorem face?_ne_none (h : Grows files directories before after) {spot : Spot}
    (hface : before.face? spot ≠ none) : after.face? spot ≠ none := by
  have hbecomes := h.becomes spot
  generalize before.face? spot = face at hbecomes hface
  generalize after.face? spot = next at hbecomes ⊢
  cases hbecomes with
  | same => exact hface
  | written allowed free text => simp
  | made allowed => simp

theorem goal (h : Grows files directories before after) (path : Path) :
    after.goal path = before.goal path := goal_of_location h.location path

theorem way (h : Grows files directories before after) (path : Path) :
    after.way path = before.way path := way_of_location h.location path

theorem opens (h : Grows files directories before after) (hopens : before.Opens path) :
    after.Opens path := hopens.of_faces h.location fun _ => h.directory

theorem isDirectory? (h : Grows files directories before after)
    (hdirectory : before.isDirectory? path = some true) : after.isDirectory? path = some true := by
  rcases isDirectory?_eq_true_iff.1 hdirectory with ⟨htext, hopens, hface⟩
  refine isDirectory?_eq_true_iff.2 ⟨htext, h.opens hopens, ?_⟩
  rw [h.goal]
  exact h.directory hface

/-- A path that names a file goes on to name it, with the same text unless that may be written. -/
theorem namesFile (h : Grows files directories before after) {text : Option String}
    (hnames : before.NamesFile path text) (hnot : ¬files (before.goal path)) :
    after.NamesFile path text := by
  rcases hnames with ⟨htext, hopens, hface, hends⟩
  refine ⟨htext, h.opens hopens, ?_, hends⟩
  have hbecomes := h.becomes (before.goal path)
  rw [hface] at hbecomes
  rcases hbecomes.file with ⟨text', hafter, hsame⟩
  rw [h.goal, hafter, hsame hnot]

end Grows

theorem grows_write {name : String} {text : Option String} (hname : path.EndsIn name)
    (h : before.write path (.file text) = .ok after) :
    Grows (· = before.goal path) (fun _ => False) before after := by
  rcases face?_write hname h with ⟨hlocation, hfaces⟩
  have hfree := ((write_eq_ok_iff hname).1 h).2.1
  refine ⟨hlocation, ?_⟩
  intro spot
  rw [hfaces]
  by_cases hspot : spot = before.goal path
  · rw [if_pos hspot]
    exact .written hspot (hspot ▸ hfree) text
  · rw [if_neg hspot]
    exact .same _

theorem grows_makeDirectory (h : before.makeDirectory path = .ok after) :
    Grows (fun _ => False) (· = before.goal path) before after := by
  rcases face?_makeDirectory h with ⟨hlocation, hfaces⟩
  have hnothing := (makeDirectory_eq_ok h).2.1
  refine ⟨hlocation, ?_⟩
  intro spot
  rw [hfaces]
  by_cases hspot : spot = before.goal path
  · rw [if_pos hspot, hspot, hnothing]
    exact .made rfl
  · rw [if_neg hspot]
    exact .same _

theorem isDirectory?_makeDirectory (h : before.makeDirectory path = .ok after)
    (htext : path.text ≠ "") : after.isDirectory? path = some true := by
  have hgrows := grows_makeDirectory h
  refine isDirectory?_eq_true_iff.2 ⟨htext, hgrows.opens (makeDirectory_eq_ok h).1, ?_⟩
  rw [hgrows.goal, (face?_makeDirectory h).2, if_pos rfl]

/-- Where there is a directory, none is made. -/
theorem makeDirectory_of_isDirectory? (h : before.isDirectory? path = some true) :
    before.makeDirectory path = .error .exists := by
  rcases isDirectory?_eq_true_iff.1 h with ⟨htext, hopens, hface⟩
  have hstands : before.Stands path.segments (before.goal path) :=
    fun s _ => ⟨by rw [hface]; simp, fun _ => hface⟩
  have hresolve := resolve_eq_ok_iff.2 ⟨htext, rfl, hopens, hstands⟩
  simp [makeDirectory, hresolve]

/-! ## The path around a path -/

/-- The way of a path is that of the path around it and then the spot where that ends. -/
theorem way_of_parent? {parent : Path} {s : Path.Segment}
    (habsolute : parent.isAbsolute = path.isAbsolute) (hsteps : path.steps = parent.steps ++ [s])
    (disk : Disk) : disk.way path = disk.way parent ++ [disk.goal parent] := by
  have hstart : disk.startOf parent = disk.startOf path := by rw [startOf, startOf, habsolute]
  rw [way, way, goal, hstart, hsteps, Spot.way_append]
  rfl

/-- A path is open if the path around it names a directory. -/
theorem opens_iff_of_parent? {parent : Path} (h : path.parent? = some parent)
    (htext : parent.text ≠ "") (disk : Disk) :
    disk.Opens path ↔ disk.isDirectory? parent = some true := by
  rcases Path.parent?_spec h with ⟨habsolute, -, ⟨hempty, -⟩ | ⟨s, hsteps⟩⟩
  · exact absurd hempty htext
  · rw [isDirectory?_eq_true_iff, Opens, way_of_parent? habsolute hsteps]
    simp only [List.mem_append, List.mem_singleton]
    constructor
    · intro hall
      exact ⟨htext, fun spot hspot => hall spot (.inl hspot), hall _ (.inr rfl)⟩
    · rintro ⟨-, hopens, hface⟩ spot (hspot | hspot)
      · exact hopens spot hspot
      · exact hspot ▸ hface

end Disk

/-! ## Making directories -/

namespace Directories

variable {disk after : Disk} {directory : Path} {fault : FileFault} {levels : Nat}

/-- What a script answers that has made a directory or not. -/
theorem on_unlessThere (directory : Path) (fault : FileFault) (disk : Disk) :
    (unlessThere directory fault).on disk =
      (if disk.isDirectory? directory = some true then .ok () else .error fault, disk) := by
  by_cases h : disk.isDirectory? directory = some true
  · simp [unlessThere, Action.run, h]
  · simp [unlessThere, Action.run, h]

theorem on_makeInner (directory : Path) (disk : Disk) :
    (makeInner directory).on disk =
      match disk.makeDirectory directory with
      | .ok after => (.ok (), after)
      | .error fault =>
        (if disk.isDirectory? directory = some true then .ok () else .error fault, disk) := by
  cases hmake : disk.makeDirectory directory with
  | ok after => simp [makeInner, Action.run, Workspace.update, hmake]
  | error fault =>
    simp only [makeInner, Script.bind_eq, Script.on_andThen, Script.on_perform, Action.run,
      Workspace.update, hmake]
    exact on_unlessThere directory fault disk

theorem on_makeWithin_empty (h : directory.text = "") (levels : Nat) (disk : Disk) :
    (makeWithin directory (levels + 1)).on disk = (.ok (), disk) := by
  simp [makeWithin, h]

theorem on_makeWithin_ok (htext : directory.text ≠ "") (h : disk.makeDirectory directory = .ok after) :
    (makeWithin directory (levels + 1)).on disk = (.ok (), after) := by
  simp [makeWithin, htext, Action.run, Workspace.update, h]

/-- A fault other than that something is missing cannot be helped. -/
theorem on_makeWithin_fault (htext : directory.text ≠ "")
    (h : disk.makeDirectory directory = .error fault) (hfault : fault ≠ .notFound) :
    (makeWithin directory (levels + 1)).on disk =
      (if disk.isDirectory? directory = some true then .ok () else .error fault, disk) := by
  have hempty : directory.text.isEmpty = false := by simpa using htext
  simp only [makeWithin, hempty, Bool.false_eq_true, if_false, Script.bind_eq, Script.on_andThen,
    Script.on_perform, Action.run, Workspace.update, h]
  cases fault with
  | notFound => exact absurd rfl hfault
  | _ => exact on_unlessThere directory _ disk

theorem on_makeWithin_rootless (htext : directory.text ≠ "")
    (h : disk.makeDirectory directory = .error .notFound) (hparent : directory.parent? = none) :
    (makeWithin directory (levels + 1)).on disk =
      (.error (.other "failed to create whole tree"), disk) := by
  simp [makeWithin, htext, Action.run, Workspace.update, h, hparent]

/-- If something is missing on the way, that is made first. -/
theorem on_makeWithin_missing {parent : Path} (htext : directory.text ≠ "")
    (h : disk.makeDirectory directory = .error .notFound)
    (hparent : directory.parent? = some parent) :
    (makeWithin directory (levels + 1)).on disk =
      match (makeWithin parent levels).on disk with
      | (.ok (), after) => (makeInner directory).on after
      | (.error fault, after) => (.error fault, after) := by
  have hempty : directory.text.isEmpty = false := by simpa using htext
  simp only [makeWithin, hempty, Bool.false_eq_true, if_false, Script.bind_eq, Script.on_andThen,
    Script.on_perform, Action.run, Workspace.update, h, hparent]
  rcases (makeWithin parent levels).on disk with ⟨result, after⟩
  cases result <;> rfl

/-- What has been achieved when a directory was to be made with those around it. -/
structure Made (disk : Disk) (directory : Path) (result : Except FileFault Unit) (after : Disk) :
    Prop where
  grows : disk.Grows (fun _ => False)
    (fun spot => spot ∈ disk.way directory ∨ spot = disk.goal directory) after
  there : result = .ok () → directory.text = "" ∨ after.isDirectory? directory = some true
  missing : ∀ fault, result = .error fault → after.isDirectory? directory ≠ some true

theorem Made.of_tried (disk : Disk) (directory : Path) (fault : FileFault) :
    Made disk directory
      (if disk.isDirectory? directory = some true then .ok () else .error fault) disk := by
  by_cases h : disk.isDirectory? directory = some true
  · rw [if_pos h]
    exact ⟨.refl disk, fun _ => .inr h, fun _ hresult => absurd hresult (by simp)⟩
  · rw [if_neg h]
    exact ⟨.refl disk, fun hresult => absurd hresult (by simp), fun _ _ => h⟩

theorem Made.of_makeDirectory (htext : directory.text ≠ "")
    (h : disk.makeDirectory directory = .ok after) : Made disk directory (.ok ()) after :=
  ⟨(Disk.grows_makeDirectory h).mono (fun _ hfile => hfile) (fun _ hspot => .inr hspot),
    fun _ => .inr (Disk.isDirectory?_makeDirectory h htext), fun _ hresult => absurd hresult (by simp)⟩

theorem made_makeInner (htext : directory.text ≠ "") (disk : Disk) :
    Made disk directory ((makeInner directory).on disk).1 ((makeInner directory).on disk).2 := by
  rw [on_makeInner]
  cases hmake : disk.makeDirectory directory with
  | ok after => exact .of_makeDirectory htext hmake
  | error fault => exact .of_tried disk directory fault

/-- What could not be resolved is no directory. -/
theorem isDirectory?_of_notFound (h : disk.makeDirectory directory = .error .notFound) :
    disk.isDirectory? directory ≠ some true := by
  intro hdirectory
  rw [Disk.makeDirectory_of_isDirectory? hdirectory] at h
  exact absurd h (by simp)

/-- There is nothing to make for the working directory, whatever the levels that are left. -/
theorem on_makeWithin_of_empty (hlevels : directory.text.length < levels) (h : directory.text = "")
    (disk : Disk) : (makeWithin directory levels).on disk = (.ok (), disk) := by
  cases levels with
  | zero => exact absurd hlevels (Nat.not_lt_zero _)
  | succ levels => exact on_makeWithin_empty h levels disk

namespace Made

variable {between : Disk} {parent : Path} {result : Except FileFault Unit}

/-- The directories around a directory lie on its way. -/
theorem grows_around (h : Made disk parent result after) (hparent : directory.parent? = some parent)
    (hempty : parent.text = "" → after = disk) :
    disk.Grows (fun _ => False) (fun spot => spot ∈ disk.way directory ∨ spot = disk.goal directory)
      after := by
  rcases Path.parent?_spec hparent with ⟨habsolute, -, ⟨htext, -⟩ | ⟨s, hsteps⟩⟩
  · rw [hempty htext]
    exact .refl disk
  · refine h.grows.mono (fun _ hfile => hfile) ?_
    intro spot hspot
    rw [Disk.way_of_parent? habsolute hsteps]
    simpa using .inl hspot

/-- What is there stands in a directory, so that nothing is there if the one around it could not be made. -/
theorem of_around_error (h : Made disk parent (.error fault) after)
    (hparent : directory.parent? = some parent) (htext : parent.text ≠ "") :
    Made disk directory (.error fault) after := by
  refine ⟨h.grows_around hparent fun hempty => absurd hempty htext, fun hresult => absurd hresult (by simp),
    ?_⟩
  intro _ _ hdirectory
  have hopens := (Disk.isDirectory?_eq_true_iff.1 hdirectory).2.1
  exact h.missing fault rfl ((Disk.opens_iff_of_parent? hparent htext after).1 hopens)

/-- What is achieved in a directory around a directory and then in it. -/
theorem of_around_ok (h : Made disk parent (.ok ()) between) (hparent : directory.parent? = some parent)
    (hempty : parent.text = "" → between = disk) (hinner : Made between directory result after) :
    Made disk directory result after := by
  have haround := h.grows_around hparent hempty
  refine ⟨haround.trans ?_, hinner.there, hinner.missing⟩
  refine hinner.grows.mono (fun _ hfile => hfile) ?_
  intro spot hspot
  rwa [haround.way, haround.goal] at hspot

end Made

/-- Making a directory with those around it; there are as many levels as the path is long. -/
theorem made_makeWithin {levels : Nat} {directory : Path} (hlevels : directory.text.length < levels)
    (disk : Disk) :
    Made disk directory ((makeWithin directory levels).on disk).1
      ((makeWithin directory levels).on disk).2 := by
  induction levels generalizing directory disk with
  | zero => omega
  | succ levels ih =>
    by_cases htext : directory.text = ""
    · rw [on_makeWithin_empty htext]
      exact ⟨.refl disk, fun _ => .inl htext, fun _ hresult => absurd hresult (by simp)⟩
    · cases hmake : disk.makeDirectory directory with
      | ok after =>
        rw [on_makeWithin_ok htext hmake]
        exact .of_makeDirectory htext hmake
      | error fault =>
        by_cases hfault : fault = .notFound
        · rw [hfault] at hmake
          cases hparent : directory.parent? with
          | none =>
            rw [on_makeWithin_rootless htext hmake hparent]
            exact ⟨.refl disk, fun hresult => absurd hresult (by simp),
              fun _ _ => isDirectory?_of_notFound hmake⟩
          | some parent =>
            have hparentLevels : parent.text.length < levels := by
              have hshorter := (Path.parent?_spec hparent).2.1
              omega
            have hmade := ih hparentLevels disk
            have hnothing := fun hempty => on_makeWithin_of_empty hparentLevels hempty disk
            rw [on_makeWithin_missing htext hmake hparent]
            rcases hran : (makeWithin parent levels).on disk with ⟨result, after⟩
            rw [hran] at hmade hnothing
            cases result with
            | error fault =>
              exact hmade.of_around_error hparent fun hempty => by simpa using hnothing hempty
            | ok value =>
              exact hmade.of_around_ok hparent (fun hempty => (Prod.mk.inj (hnothing hempty)).2)
                (made_makeInner htext after)
        · rw [on_makeWithin_fault htext hmake hfault]
          exact .of_tried disk directory fault

/-- Where there is a directory, there is nothing to make. -/
theorem on_makeWithin_there (h : disk.isDirectory? directory = some true) (levels : Nat) :
    (makeWithin directory (levels + 1)).on disk = (.ok (), disk) := by
  have htext := (Disk.isDirectory?_eq_true_iff.1 h).1
  rw [on_makeWithin_fault htext (Disk.makeDirectory_of_isDirectory? h) (by simp), if_pos h]

/-- A directory cannot be made where that fails and there is nothing to be made around it. -/
theorem on_makeWithin_fails {parent : Path} {result : Except FileFault Unit}
    (htext : directory.text ≠ "") (hmissing : disk.isDirectory? directory ≠ some true)
    (hmake : disk.makeDirectory directory = .error fault)
    (hparent : directory.parent? = some parent)
    (haround : (makeWithin parent levels).on disk = (result, disk)) :
    ∃ again, (makeWithin directory (levels + 1)).on disk = (.error again, disk) := by
  by_cases hfault : fault = .notFound
  · rw [hfault] at hmake
    rw [on_makeWithin_missing htext hmake hparent, haround]
    cases result with
    | error again => exact ⟨again, rfl⟩
    | ok value =>
      refine ⟨.notFound, ?_⟩
      simp only [on_makeInner, hmake, if_neg hmissing]
  · exact ⟨fault, by rw [on_makeWithin_fault htext hmake hfault, if_neg hmissing]⟩

/-- In what is no directory none is made. -/
theorem makeDirectory_of_parent {parent : Path} (hparent : directory.parent? = some parent)
    (htext : parent.text ≠ "") (hmissing : disk.isDirectory? parent ≠ some true) :
    ∃ fault, disk.makeDirectory directory = .error fault := by
  cases hmake : disk.makeDirectory directory with
  | error fault => exact ⟨fault, rfl⟩
  | ok made =>
    have hopens := (Disk.makeDirectory_eq_ok hmake).1
    exact absurd ((Disk.opens_iff_of_parent? hparent htext disk).1 hopens) hmissing

theorem on_makeInner_error (h : (makeInner directory).on disk = (.error fault, after)) :
    disk = after ∧ disk.makeDirectory directory = .error fault := by
  rw [on_makeInner] at h
  cases hmake : disk.makeDirectory directory with
  | ok made => simp [hmake] at h
  | error first =>
    simp only [hmake] at h
    rcases Prod.mk.inj h with ⟨hresult, hdisk⟩
    split at hresult
    · exact absurd hresult (by simp)
    · have hfault : first = fault := Except.error.inj hresult
      exact ⟨hdisk, by rw [hfault]⟩

/-- A failure has only changed the disk if something was missing around the directory. -/
theorem around_of_changed (h : (makeWithin directory (levels + 1)).on disk = (.error fault, after))
    (hchanged : disk ≠ after) :
    directory.text ≠ "" ∧ ∃ parent, directory.parent? = some parent ∧
      ((makeWithin parent levels).on disk = (.error fault, after) ∨
        ∃ between, (makeWithin parent levels).on disk = (.ok (), between) ∧
          (makeInner directory).on between = (.error fault, after)) := by
  have htext : directory.text ≠ "" := by
    intro htext
    rw [on_makeWithin_empty htext] at h
    exact hchanged (Prod.mk.inj h).2
  refine ⟨htext, ?_⟩
  cases hmake : disk.makeDirectory directory with
  | ok made =>
    rw [on_makeWithin_ok htext hmake] at h
    exact absurd h (by simp)
  | error first =>
    by_cases hfirst : first = .notFound
    · rw [hfirst] at hmake
      cases hparent : directory.parent? with
      | none =>
        rw [on_makeWithin_rootless htext hmake hparent] at h
        exact absurd (Prod.mk.inj h).2 hchanged
      | some parent =>
        refine ⟨parent, rfl, ?_⟩
        rw [on_makeWithin_missing htext hmake hparent] at h
        rcases hran : (makeWithin parent levels).on disk with ⟨result, between⟩
        rw [hran] at h
        cases result with
        | error around => exact .inl h
        | ok value => exact .inr ⟨between, rfl, h⟩
    · rw [on_makeWithin_fault htext hmake hfirst] at h
      exact absurd (Prod.mk.inj h).2 hchanged

/-- What could not be made cannot be made a second time, and nothing changes. -/
theorem on_makeWithin_again {levels : Nat} {directory : Path}
    (hlevels : directory.text.length < levels)
    (h : (makeWithin directory levels).on disk = (.error fault, after)) :
    ∃ again, (makeWithin directory levels).on after = (.error again, after) := by
  induction levels generalizing directory fault with
  | zero => exact absurd hlevels (Nat.not_lt_zero _)
  | succ levels ih =>
    by_cases hsame : disk = after
    · exact ⟨fault, by rw [← hsame] at h ⊢; exact h⟩
    have hmissing : after.isDirectory? directory ≠ some true := by
      have hmade := made_makeWithin hlevels disk
      rw [h] at hmade
      exact hmade.missing fault rfl
    rcases around_of_changed h hsame with ⟨htext, parent, hparent, hcases⟩
    have hparentLevels : parent.text.length < levels := by
      have hshorter := (Path.parent?_spec hparent).2.1
      omega
    have hmade := made_makeWithin hparentLevels disk
    rcases hcases with haround | ⟨between, haround, hinner⟩
    · -- The directory around this one could not be made, and cannot be made now.
      rw [haround] at hmade
      have htextParent : parent.text ≠ "" := by
        intro hempty
        rw [on_makeWithin_of_empty hparentLevels hempty] at haround
        exact absurd haround (by simp)
      rcases makeDirectory_of_parent hparent htextParent (hmade.missing fault rfl) with ⟨_, hsecond⟩
      rcases ih hparentLevels haround with ⟨_, hagain⟩
      exact on_makeWithin_fails htext hmissing hsecond hparent hagain
    · -- The directory around this one is there now, so only this one was tried in vain.
      rcases on_makeInner_error hinner with ⟨rfl, hsecond⟩
      rw [haround] at hmade
      have hagain : (makeWithin parent levels).on between = (.ok (), between) := by
        rcases hmade.there rfl with hempty | hdirectory
        · exact on_makeWithin_of_empty hparentLevels hempty between
        · cases levels with
          | zero => exact absurd hparentLevels (Nat.not_lt_zero _)
          | succ levels => exact on_makeWithin_there hdirectory levels
      exact on_makeWithin_fails htext hmissing hsecond hparent hagain

end Directories

end PipelineTree
