import PipelineTree.Error.Basic
import PipelineTree.Tree.Kind
import PipelineTree.Value.Props

/-!
# Run — computations that report events and may fail

A run is what was reported and how it ended.  What was reported before a failure is kept.
-/

namespace PipelineTree

/-- How much an event matters. -/
inductive Level where
  | trace
  | debug
  | warn
  deriving DecidableEq, Repr

/-- What the compiler reports while it works. -/
inductive Event where
  | invokingRule (rule : String) (depth : Nat)
  | foreignNode (expected : Kind) (found : String)
  | renderingRoot (platform : String)
  | childlessWorkflow
  | childlessPipeline
  | unacceptedNode (kind context : String)
  | joblessWorkflow
  | partlessPipeline
  | disabledStep (unit : String) (position : Nat)
  | compiledWorkflow (jobs : Nat)
  | compiledPipeline (stages : Nat)
  deriving DecidableEq, Repr

namespace Event

def level : Event → Level
  | .invokingRule .. => .trace
  | .foreignNode .. | .unacceptedNode .. | .joblessWorkflow | .partlessPipeline => .warn
  | _ => .debug

def message : Event → String
  | .invokingRule .. => "invoking expansion rule"
  | .foreignNode .. => "ignoring non-step node inside a job"
  | .renderingRoot _ => "rendering root"
  | .childlessWorkflow => "workflow has no children, nothing to render"
  | .childlessPipeline => "pipeline has no children, nothing to render"
  | .unacceptedNode .. => "ignoring node the platform does not accept here"
  | .joblessWorkflow => "workflow has children but no jobs, nothing to render"
  | .partlessPipeline =>
    "pipeline has children but no stages, jobs or steps, nothing to render"
  | .disabledStep .. => "dropping disabled step"
  | .compiledWorkflow _ => "compiled workflow"
  | .compiledPipeline _ => "compiled pipeline"

def fields : Event → Props
  | .invokingRule rule depth => [("rule", .text rule), ("depth", .number (.int depth))]
  | .foreignNode expected found => [("expected", .text expected.name), ("found", .text found)]
  | .renderingRoot platform => [("platform", .text platform)]
  | .unacceptedNode kind context => [("kind", .text kind), ("context", .text context)]
  | .disabledStep unit position => [("unit", .text unit), ("position", .number (.int position))]
  | .compiledWorkflow jobs => [("jobs", .number (.int jobs))]
  | .compiledPipeline stages => [("stages", .number (.int stages))]
  | .childlessWorkflow | .childlessPipeline | .joblessWorkflow | .partlessPipeline => []

end Event

/-- What a computation reported, in order, and how it ended. -/
structure Run (α : Type) where
  events : List Event
  result : Except Error α

namespace Run

variable {α β : Type}

def done (value : α) : Run α := ⟨[], .ok value⟩

def fail (error : Error) : Run α := ⟨[], .error error⟩

def report (events : List Event) : Run Unit := ⟨events, .ok ()⟩

def ofExcept (result : Except Error α) : Run α := ⟨[], result⟩

def andThen (first : Run α) (next : α → Run β) : Run β :=
  match first.result with
  | .ok value =>
    let second := next value
    ⟨first.events ++ second.events, second.result⟩
  | .error error => ⟨first.events, .error error⟩

instance : Monad Run where
  pure := done
  bind := andThen

/-- Runs one computation per item, from left to right, up to the first failure. -/
def forEach (f : α → Run β) : List α → Run (List β)
  | [] => done []
  | a :: as => do
    let b ← f a
    let bs ← forEach f as
    pure (b :: bs)

@[simp] theorem pure_eq (value : α) : (pure value : Run α) = done value := rfl

@[simp] theorem bind_eq (first : Run α) (next : α → Run β) : first >>= next = first.andThen next := rfl

@[simp] theorem done_andThen (value : α) (next : α → Run β) :
    (done value).andThen next = next value := by
  simp [done, andThen]

theorem andThen_assoc {γ : Type} (first : Run α) (next : α → Run β) (last : β → Run γ) :
    (first.andThen next).andThen last = first.andThen fun value => (next value).andThen last := by
  cases first with
  | mk events result =>
    cases result with
    | error => rfl
    | ok value =>
      simp only [andThen]
      cases (next value).result <;> simp

/-! ## How runs end -/

@[simp] theorem ok_bind {ε : Type} (value : α) (next : α → Except ε β) :
    ((.ok value : Except ε α) >>= next) = next value := rfl

@[simp] theorem error_bind {ε : Type} (error : ε) (next : α → Except ε β) :
    ((.error error : Except ε α) >>= next) = .error error := rfl

theorem bind_eq_ok_iff {ε : Type} {first : Except ε α} {next : α → Except ε β} {last : β} :
    (first >>= next) = .ok last ↔ ∃ value, first = .ok value ∧ next value = .ok last := by
  cases first <;> simp

theorem bind_eq_error_iff {ε : Type} {first : Except ε α} {next : α → Except ε β} {error : ε} :
    (first >>= next) = .error error ↔
      first = .error error ∨ ∃ value, first = .ok value ∧ next value = .error error := by
  cases first <;> simp

theorem map_eq_ok_iff {ε : Type} {first : Except ε α} {f : α → β} {last : β} :
    f <$> first = .ok last ↔ ∃ value, first = .ok value ∧ f value = last := by
  cases first <;> simp [Functor.map, Except.map]

theorem map_eq_error_iff {ε : Type} {first : Except ε α} {f : α → β} {error : ε} :
    f <$> first = .error error ↔ first = .error error := by
  cases first <;> simp [Functor.map, Except.map]

@[simp] theorem result_done (value : α) : (done value).result = .ok value := rfl

@[simp] theorem result_fail (error : Error) : (fail error : Run α).result = .error error := rfl

@[simp] theorem result_report (events : List Event) : (report events).result = .ok () := rfl

@[simp] theorem result_ofExcept (result : Except Error α) : (ofExcept result).result = result := rfl

@[simp] theorem result_andThen (first : Run α) (next : α → Run β) :
    (first.andThen next).result = first.result >>= fun value => (next value).result := by
  cases first with
  | mk events result => cases result <;> rfl

end Run

end PipelineTree
