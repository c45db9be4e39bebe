import PipelineTree.Proofs.Files.Discovery
import PipelineTree.Proofs.Files.Growth
import PipelineTree.Proofs.Files.Listing

/-!
# Trace — what a script writes and prints

The spots at which a script writes files are told by carrying it out (`Script.written`).  A script that is only
allowed to write to marked names does so at marked spots.  What it prints is told in the same way (`Script.said`),
and comes after all that was printed before.
-/

namespace PipelineTree

variable {α β : Type} {disk : Disk} {spot : Spot} {text : Option String}

/-! ## Actions -/

namespace Action

/-- The spots at which an action writes a file: the goal of its path, if that succeeds. -/
def written (disk : Disk) : Action β → List Spot
  | .write file text =>
    match disk.write file (.file (some text)) with
    | .ok _ => [disk.goal file]
    | .error _ => []
  | _ => []

/-- What an action leaves on a disk. -/
def after (action : Action β) (disk : Disk) : Disk := (action.run ⟨disk, []⟩).2.disk

/-- Files are only written under marked names. -/
def WritesMarked : Action β → Prop
  | .write file _ => ∃ name, file.EndsIn name ∧ Path.isMarked name = true
  | _ => True

/-- An action that may only write to marked names writes at marked spots. -/
theorem marked_of_written {action : Action β} (hmarked : action.WritesMarked) (h : spot ∈ action.written disk) :
    Spot.Marked spot := by
  cases action with
  | write file text =>
    rw [written] at h
    cases hwrite : disk.write file (.file (some text)) with
    | error fault => simp [hwrite] at h
    | ok next =>
      have hspot : spot = disk.goal file := by simpa [hwrite] using h
      rcases hmarked with ⟨last, hlast, hname⟩
      rw [hspot]
      exact (Disk.marked_goal_iff hlast disk).2 hname
  | _ => exact absurd h (by simp [written])

/-- What an action prints. -/
def said : Action β → List (Channel × String)
  | .print channel text => [(channel, text)]
  | _ => []

theorem run_printed (action : Action β) (workspace : Workspace) :
    (action.run workspace).2.printed = workspace.printed ++ action.said := by
  have hupdate : ∀ changed : Except FileFault Disk,
      (workspace.update changed).2.printed = workspace.printed ++ [] := by
    intro changed
    rw [List.append_nil]
    cases changed <;> rfl
  cases action with
  | enter directory => simpa only [run, said] using hupdate (workspace.disk.enter directory)
  | makeDirectory directory =>
    simpa only [run, said] using hupdate (workspace.disk.makeDirectory directory)
  | write file text =>
    simpa only [run, said] using hupdate (workspace.disk.write file (.file (some text)))
  | print channel text => rfl
  | _ => exact (List.append_nil _).symm

/-- Actions that print nothing. -/
def Silent (action : Action β) : Prop := action.said = []

theorem writesMarked_of_keepsDisk {action : Action β} (h : action.KeepsDisk) : action.WritesMarked := by
  cases action with
  | write file text => exact h.elim
  | _ => trivial

theorem writesMarked_of_looks {action : Action β} (h : action.Looks) : action.WritesMarked := by
  cases action with
  | write file text => exact h.elim
  | _ => trivial

end Action

/-! ## Scripts -/

namespace Script

/-- The spots at which a script writes files, in order. -/
def written (disk : Disk) : Script α → List Spot
  | .done _ => []
  | .act action next =>
    action.written disk ++ (next (action.run ⟨disk, []⟩).1).written (action.after disk)

/-- A script that is only allowed to write to marked names writes at marked spots. -/
theorem marked_of_written {script : Script α} (hmarked : script.Uses Action.WritesMarked)
    (h : spot ∈ script.written disk) : Spot.Marked spot := by
  induction script generalizing disk with
  | done value => exact absurd h (by simp [written])
  | act action next ih =>
    rcases List.mem_append.1 h with hfirst | hrest
    · exact Action.marked_of_written hmarked.1 hfirst
    · exact ih _ (hmarked.2 _) hrest

/-- What a script prints, in order. -/
def said (disk : Disk) : Script α → List (Channel × String)
  | .done _ => []
  | .act action next => action.said ++ (next (action.run ⟨disk, []⟩).1).said (action.after disk)

@[simp] theorem said_done (disk : Disk) (value : α) : (done value).said disk = [] := rfl

@[simp] theorem said_andThen (disk : Disk) (first : Script α) (next : α → Script β) :
    (first.andThen next).said disk =
      first.said disk ++ (next (first.on disk).1).said (first.on disk).2 := by
  induction first generalizing disk with
  | done value => rfl
  | act action rest ih =>
    have hrest := ih (action.run ⟨disk, []⟩).1 (action.after disk)
    rw [andThen, said, said, hrest, List.append_assoc]
    rfl

/-- What a script prints comes after what was printed before. -/
theorem run_printed (script : Script α) (workspace : Workspace) :
    (script.run workspace).2.printed = workspace.printed ++ script.said workspace.disk := by
  induction script generalizing workspace with
  | done value => exact (List.append_nil _).symm
  | act action next ih =>
    rcases action.run_disk workspace with ⟨hanswer, hdisk⟩
    have hrest := ih (action.run workspace).1 (action.run workspace).2
    rw [Action.run_printed, hanswer, hdisk] at hrest
    rw [run_act, said, hanswer, hrest, List.append_assoc]
    rfl

theorem said_of_silent {script : Script α} (h : script.Uses Action.Silent) (disk : Disk) :
    script.said disk = [] := by
  induction script generalizing disk with
  | done value => rfl
  | act action next ih =>
    have hfirst : action.said = [] := h.1
    rw [said, hfirst, List.nil_append]
    exact ih _ (h.2 _) _

end Script

/-! ## Attempts -/

namespace Attempt

variable {allowed : {γ : Type} → Action γ → Prop}

theorem uses_bind {first : Attempt α} {next : α → Attempt β} (hfirst : first.run.Uses allowed)
    (hnext : ∀ value, (next value).run.Uses allowed) : (first >>= next).run.Uses allowed := by
  rw [ExceptT.run_bind, Script.bind_eq]
  refine hfirst.andThen ?_
  intro result
  cases result with
  | ok value => exact hnext value
  | error error => trivial

theorem uses_lift {script : Script α} (h : script.Uses allowed) :
    (ExceptT.lift script : Attempt α).run.Uses allowed := by
  rw [ExceptT.run_lift]
  exact h.andThen fun _ => trivial

theorem uses_perform {action : Action α} (h : allowed action) :
    (Attempt.perform action).run.Uses allowed := uses_lift (Script.uses_perform h)

theorem uses_pure (value : α) : (pure value : Attempt α).run.Uses allowed := trivial

theorem uses_throw (error : Error) : (throw error : Attempt α).run.Uses allowed := trivial

theorem uses_ofExcept (result : Except Error α) : (Attempt.ofExcept result).run.Uses allowed := trivial

/-- What comes next only has to deal with the value that there is. -/
theorem uses_ofExcept_bind {result : Except Error α} {next : α → Attempt β}
    (h : ∀ value, result = .ok value → (next value).run.Uses allowed) :
    (Attempt.ofExcept result >>= next).run.Uses allowed := by
  cases result with
  | ok value => exact h value rfl
  | error error => trivial

theorem uses_tryCatch {first : Attempt α} {handle : Error → Attempt α} (hfirst : first.run.Uses allowed)
    (hhandle : ∀ error, (handle error).run.Uses allowed) :
    (tryCatch first handle).run.Uses allowed := by
  refine Script.Uses.andThen hfirst ?_
  intro result
  cases result with
  | ok value => trivial
  | error error => exact hhandle error

end Attempt

namespace Inputs

/-- Resolving patterns only looks. -/
theorem uses_resolve (patterns : List String) (base : Path) :
    (resolve patterns base).run.Uses Action.Looks := by
  have hkeep : ∀ paths : List Path, (keepInputs paths).Uses Action.Looks := by
    intro paths
    induction paths with
    | nil => trivial
    | cons path paths ih =>
      have hinput : (isInput path).Uses Action.Looks := ⟨trivial, fun _ => trivial⟩
      exact hinput.andThen fun _ => ih.andThen fun _ => trivial
  have hpattern : ∀ pattern : String, (ofPattern base pattern).run.Uses Action.Looks := by
    intro pattern
    rw [ofPattern]
    split
    · exact Attempt.uses_throw _
    next search _ =>
      refine Attempt.uses_bind (Attempt.uses_lift (Search.uses_below _ _ _)) ?_
      intro found
      refine Attempt.uses_bind (Attempt.uses_lift (hkeep found)) ?_
      intro inputs
      split
      · exact Attempt.uses_throw _
      · exact Attempt.uses_pure inputs
  have hall : ∀ sorted : List Path, (addAll base sorted patterns).run.Uses Action.Looks := by
    induction patterns with
    | nil => exact fun sorted => Attempt.uses_pure sorted
    | cons pattern patterns ih =>
      intro sorted
      exact Attempt.uses_bind (hpattern pattern) fun inputs => ih _
  exact hall []

end Inputs

end PipelineTree
