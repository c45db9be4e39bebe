import PipelineTree.Files.Inputs
import PipelineTree.Files.Workspace

/-!
# Effects — what scripts may do, and what they do to a disk

Which actions a script can perform, whatever it is answered, can be read off it (`Script.Uses`); one that
only looks leaves everything as it is.  What a script answers and what it does to the disk do not depend on
what was printed before, so that both can be told from the disk alone (`Script.on`).
-/

namespace PipelineTree

/-! ## Allowed actions -/

/-- Actions that change nothing. -/
def Action.Looks {β : Type} : Action β → Prop
  | .location | .isDirectory? _ | .list _ | .walk _ | .read _ | .clock => True
  | .enter _ | .makeDirectory _ | .write _ _ | .print _ _ => False

theorem Action.run_of_looks {β : Type} {action : Action β} (h : action.Looks)
    (workspace : Workspace) : (action.run workspace).2 = workspace := by
  cases action with
  | location => rfl
  | isDirectory? path => rfl
  | list directory => rfl
  | walk directory => rfl
  | read file => rfl
  | clock => rfl
  | enter directory => exact h.elim
  | makeDirectory directory => exact h.elim
  | write file text => exact h.elim
  | print channel text => exact h.elim

/-- Actions that leave all files and directories as they are. -/
def Action.KeepsDisk {β : Type} : Action β → Prop
  | .enter _ | .makeDirectory _ | .write _ _ => False
  | _ => True

theorem Action.run_of_keepsDisk {β : Type} {action : Action β} (h : action.KeepsDisk)
    (workspace : Workspace) : (action.run workspace).2.disk = workspace.disk := by
  cases action with
  | enter directory => exact h.elim
  | makeDirectory directory => exact h.elim
  | write file text => exact h.elim
  | _ => rfl

/-- What was printed makes no difference to what an action answers and does to the disk. -/
theorem Action.run_disk {β : Type} (action : Action β) (workspace : Workspace) :
    (action.run workspace).1 = (action.run ⟨workspace.disk, []⟩).1 ∧
      (action.run workspace).2.disk = (action.run ⟨workspace.disk, []⟩).2.disk := by
  have hupdate : ∀ changed : Except FileFault Disk,
      (workspace.update changed).1 = (Workspace.update ⟨workspace.disk, []⟩ changed).1 ∧
        (workspace.update changed).2.disk = (Workspace.update ⟨workspace.disk, []⟩ changed).2.disk := by
    intro changed
    cases changed with
    | ok disk => exact ⟨rfl, rfl⟩
    | error fault => exact ⟨rfl, rfl⟩
  cases action with
  | enter directory => simpa only [Action.run] using hupdate (workspace.disk.enter directory)
  | makeDirectory directory =>
    simpa only [Action.run] using hupdate (workspace.disk.makeDirectory directory)
  | write file text =>
    simpa only [Action.run] using hupdate (workspace.disk.write file (.file (some text)))
  | _ => simp only [Action.run, and_self]

namespace Script

variable {α β : Type} {allowed more : {γ : Type} → Action γ → Prop}

/-- A script only performs allowed actions, whatever it is answered. -/
def Uses (allowed : {γ : Type} → Action γ → Prop) : Script α → Prop
  | .done _ => True
  | .act action next => allowed action ∧ ∀ answer, (next answer).Uses allowed

theorem uses_done (value : α) : (done value).Uses allowed := trivial

theorem uses_perform {action : Action α} (h : allowed action) : (perform action).Uses allowed :=
  ⟨h, fun _ => trivial⟩

theorem Uses.andThen {first : Script α} {next : α → Script β} (hfirst : first.Uses allowed)
    (hnext : ∀ value, (next value).Uses allowed) : (first.andThen next).Uses allowed := by
  induction first with
  | done value => exact hnext value
  | act action rest ih => exact ⟨hfirst.1, fun answer => ih answer (hfirst.2 answer)⟩

theorem Uses.mono {script : Script α} (h : script.Uses allowed)
    (himplies : ∀ {γ : Type} (action : Action γ), allowed action → more action) :
    script.Uses more := by
  induction script with
  | done value => trivial
  | act action next ih => exact ⟨himplies action h.1, fun answer => ih answer (h.2 answer)⟩

theorem uses_forEach {f : α → Script β} {items : List α} (h : ∀ a ∈ items, (f a).Uses allowed) :
    (forEach f items).Uses allowed := by
  induction items with
  | nil => trivial
  | cons a as ih =>
    have hrest : (forEach f as).Uses allowed := ih fun b hb => h b (List.mem_cons_of_mem a hb)
    have hfirst : (f a).Uses allowed := h a List.mem_cons_self
    rw [forEach, bind_eq]
    refine hfirst.andThen ?_
    intro b
    rw [bind_eq]
    exact hrest.andThen fun bs => uses_done (b :: bs)

theorem run_act {γ : Type} (action : Action γ) (next : γ → Script α) (workspace : Workspace) :
    (act action next).run workspace =
      (next (action.run workspace).1).run (action.run workspace).2 := rfl

/-- A script that only looks changes nothing. -/
theorem run_of_looks {script : Script α} (h : script.Uses Action.Looks) (workspace : Workspace) :
    (script.run workspace).2 = workspace := by
  induction script with
  | done value => rfl
  | act action next ih =>
    have haction := Action.run_of_looks h.1 workspace
    have hnext := ih (action.run workspace).1 (h.2 _)
    rw [run_act, haction]
    exact hnext

/-! ## Scripts on a disk -/

/-- What a script answers on a disk, and the disk that it leaves. -/
def on (disk : Disk) : Script α → α × Disk
  | .done value => (value, disk)
  | .act action next =>
    let ran := action.run ⟨disk, []⟩
    (next ran.1).on ran.2.disk

theorem run_eq_on (script : Script α) (workspace : Workspace) :
    (script.run workspace).1 = (script.on workspace.disk).1 ∧
      (script.run workspace).2.disk = (script.on workspace.disk).2 := by
  induction script generalizing workspace with
  | done value => exact ⟨rfl, rfl⟩
  | act action next ih =>
    rcases action.run_disk workspace with ⟨hanswer, hdisk⟩
    have hnext := ih (action.run workspace).1 (action.run workspace).2
    rw [hdisk, hanswer] at hnext
    rw [run_act, on, hanswer]
    exact hnext

theorem run_fst (script : Script α) (workspace : Workspace) :
    (script.run workspace).1 = (script.on workspace.disk).1 := (run_eq_on script workspace).1

theorem run_disk (script : Script α) (workspace : Workspace) :
    (script.run workspace).2.disk = (script.on workspace.disk).2 := (run_eq_on script workspace).2

@[simp] theorem on_done (disk : Disk) (value : α) : (done value).on disk = (value, disk) := rfl

@[simp] theorem on_andThen (disk : Disk) (first : Script α) (next : α → Script β) :
    (first.andThen next).on disk = (next (first.on disk).1).on (first.on disk).2 := by
  induction first generalizing disk with
  | done value => rfl
  | act action rest ih => exact ih _ _

@[simp] theorem on_perform (disk : Disk) (action : Action α) :
    (perform action).on disk = ((action.run ⟨disk, []⟩).1, (action.run ⟨disk, []⟩).2.disk) := rfl

theorem on_of_looks {script : Script α} (h : script.Uses Action.Looks) (disk : Disk) :
    (script.on disk).2 = disk := by
  have hrun := congrArg Workspace.disk (run_of_looks h ⟨disk, []⟩)
  rwa [run_disk] at hrun

theorem on_of_keepsDisk {script : Script α} (h : script.Uses Action.KeepsDisk) (disk : Disk) :
    (script.on disk).2 = disk := by
  induction script with
  | done value => rfl
  | act action next ih =>
    rw [on, Action.run_of_keepsDisk h.1]
    exact ih _ (h.2 _)

/-- What a script answers on a disk. -/
def answer (script : Script α) (disk : Disk) : α := (script.on disk).1

theorem on_eq_answer {script : Script α} (h : script.Uses Action.Looks) (disk : Disk) :
    script.on disk = (script.answer disk, disk) := by
  rw [answer]
  exact Prod.ext rfl (on_of_looks h disk)

@[simp] theorem answer_done (disk : Disk) (value : α) : (done value).answer disk = value := rfl

@[simp] theorem answer_pure (disk : Disk) (value : α) : (pure value : Script α).answer disk = value := rfl

/-- What was only looked at is there for what comes next. -/
theorem answer_andThen {first : Script α} (h : first.Uses Action.Looks) (next : α → Script β)
    (disk : Disk) : (first.andThen next).answer disk = (next (first.answer disk)).answer disk := by
  rw [answer, on_andThen, on_eq_answer h]
  rfl

theorem answer_forEach {f : α → Script β} (h : ∀ a, (f a).Uses Action.Looks) (items : List α)
    (disk : Disk) : (forEach f items).answer disk = items.map fun a => (f a).answer disk := by
  induction items with
  | nil => rfl
  | cons a as ih =>
    have hrest : (forEach f as).Uses Action.Looks := uses_forEach fun b _ => h b
    rw [forEach, bind_eq, answer_andThen (h a), bind_eq, answer_andThen hrest, ih]
    rfl

end Script

/-! ## Attempts on a disk -/

namespace Attempt

variable {α β : Type} {disk : Disk}

theorem on_bind (first : Attempt α) (next : α → Attempt β) (disk : Disk) :
    (first >>= next).run.on disk =
      match first.run.on disk with
      | (.ok value, after) => (next value).run.on after
      | (.error error, after) => (.error error, after) := by
  rw [ExceptT.run_bind, Script.bind_eq, Script.on_andThen]
  rcases first.run.on disk with ⟨result, after⟩
  cases result <;> rfl

theorem on_tryCatch (first : Attempt α) (handle : Error → Attempt α) (disk : Disk) :
    (tryCatch first handle).run.on disk =
      match first.run.on disk with
      | (.ok value, after) => (.ok value, after)
      | (.error error, after) => (handle error).run.on after := by
  change (Script.andThen first.run _).on disk = _
  rw [Script.on_andThen]
  rcases first.run.on disk with ⟨result, after⟩
  cases result <;> rfl

@[simp] theorem on_throw (error : Error) (disk : Disk) :
    (throw error : Attempt α).run.on disk = (.error error, disk) := rfl

@[simp] theorem on_ofExcept (result : Except Error α) (disk : Disk) :
    (Attempt.ofExcept result).run.on disk = (result, disk) := rfl

@[simp] theorem on_lift (script : Script α) (disk : Disk) :
    (ExceptT.lift script : Attempt α).run.on disk =
      (.ok (script.on disk).1, (script.on disk).2) := by
  rw [ExceptT.run_lift]
  simp [Functor.map]

@[simp] theorem on_perform (action : Action α) (disk : Disk) :
    (Attempt.perform action).run.on disk =
      (.ok (action.run ⟨disk, []⟩).1, (action.run ⟨disk, []⟩).2.disk) :=
  on_lift (Script.perform action) disk

end Attempt

end PipelineTree
