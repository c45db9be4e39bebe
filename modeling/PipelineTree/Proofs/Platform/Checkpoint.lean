import PipelineTree.Proofs.Platform.Parts

/-!
# Checkpoint — what a compiler reaches before it fails

A compiler goes through its parts in document order and reaches checkpoints: children to expand, and
rules that are broken.  It fails with an error exactly if it reaches a checkpoint that fails with it
(`FailsAt`).  `Reached` describes what is reached in a row of parts, `Expanding` what is reached where
children are expanded first.  Both are used here for the steps of a unit, and by the platforms for jobs
and stages.
-/

namespace PipelineTree

/-- What a compiler reaches: children to expand, or a rule that is broken. -/
inductive Checkpoint (ρ : Type) where
  | expansion (children : List (Node ρ))
  | violation (error : Error)

/-! ## Parts in a row -/

section Rows

variable {α β : Type}

/--
What is reached in a row of parts: something at the first part, or, if that part is sound, something
behind it.  Both may depend on the parts that were seen before.
-/
inductive Reached (Sound : List α → α → Prop) (At : List α → α → β → Prop) :
    List α → List α → β → Prop where
  | here {seen rest : List α} {part : α} {b : β} :
      At seen part b → Reached Sound At seen (part :: rest) b
  | later {seen rest : List α} {part : α} {b : β} :
      Sound seen part → Reached Sound At (seen ++ [part]) rest b →
        Reached Sound At seen (part :: rest) b

variable {Sound : List α → α → Prop} {At : List α → α → β → Prop}

theorem not_reached_nil {seen : List α} {b : β} : ¬Reached Sound At seen [] b := by
  rintro ⟨⟩

theorem reached_cons_iff {seen rest : List α} {part : α} {b : β} :
    Reached Sound At seen (part :: rest) b ↔
      At seen part b ∨ Sound seen part ∧ Reached Sound At (seen ++ [part]) rest b := by
  constructor
  · rintro (hpart | ⟨hsound, hrest⟩)
    · exact .inl hpart
    · exact .inr ⟨hsound, hrest⟩
  · rintro (hpart | ⟨hsound, hrest⟩)
    · exact .here hpart
    · exact .later hsound hrest

/-- The part at which something is reached, between the parts on both sides of it. -/
theorem Reached.exists_part {seen parts : List α} {b : β} (h : Reached Sound At seen parts b) :
    ∃ before part after, parts = before ++ part :: after ∧ At (seen ++ before) part b := by
  induction h with
  | @here seen rest part b hpart =>
    refine ⟨[], part, rest, rfl, ?_⟩
    simpa using hpart
  | @later seen rest part b _ _ ih =>
    rcases ih with ⟨before, found, after, hrest, hfound⟩
    refine ⟨part :: before, found, after, by rw [hrest, List.cons_append], ?_⟩
    simpa using hfound

/-- What is reached where soundness is a matter of each part: something at a part behind sound ones. -/
theorem reached_iff_exists_part {S : α → Prop} {seen parts : List α} {b : β} :
    Reached (fun _ part => S part) At seen parts b ↔
      ∃ before part after, parts = before ++ part :: after ∧ (∀ other ∈ before, S other) ∧
        At (seen ++ before) part b := by
  constructor
  · intro h
    induction h with
    | @here seen rest part b hpart =>
      refine ⟨[], part, rest, rfl, by simp, ?_⟩
      simpa using hpart
    | @later seen rest part b hsound _ ih =>
      rcases ih with ⟨before, found, after, hrest, hbefore, hfound⟩
      refine ⟨part :: before, found, after, by rw [hrest, List.cons_append], ?_, ?_⟩
      · exact List.forall_mem_cons.2 ⟨hsound, hbefore⟩
      · simpa using hfound
  · rintro ⟨before, part, after, rfl, hbefore, hpart⟩
    induction before generalizing seen with
    | nil => exact .here (by simpa using hpart)
    | cons first before ih =>
      rcases List.forall_mem_cons.1 hbefore with ⟨hfirst, hbefore⟩
      exact .later hfirst (ih hbefore (by simpa using hpart))

theorem Reached.exists_mem {seen parts : List α} {b : β} (h : Reached Sound At seen parts b) :
    ∃ before, ∃ part ∈ parts, At before part b := by
  rcases h.exists_part with ⟨before, part, after, rfl, hpart⟩
  exact ⟨seen ++ before, part, by simp, hpart⟩

end Rows

/-! ## Results and checkpoints -/

section Results

variable {ρ γ δ : Type} [ExpansionRule ρ] {limit : Nat}

/-- The error with which a checkpoint fails. -/
def Checkpoint.FailsWith (limit : Nat) : Checkpoint ρ → Error → Prop
  | .expansion children, error => (expandAll limit children).result = .error error
  | .violation found, error => found = error

/-- A result is an error exactly if a checkpoint that fails with this error is reached. -/
def FailsAt (limit : Nat) (result : Except Error γ) (Reaches : Checkpoint ρ → Prop) : Prop :=
  ∀ error, result = .error error ↔
    ∃ checkpoint, Reaches checkpoint ∧ checkpoint.FailsWith limit error

/-- What is reached where children are expanded: the children, and then something in what they yield. -/
inductive Expanding (limit : Nat) (children : List (Node ρ))
    (Inside : List (Node ρ) → Checkpoint ρ → Prop) : Checkpoint ρ → Prop where
  | children : Expanding limit children Inside (.expansion children)
  | inside {nodes : List (Node ρ)} {checkpoint : Checkpoint ρ} :
      (expandAll limit children).result = .ok nodes → Inside nodes checkpoint →
        Expanding limit children Inside checkpoint

theorem FailsAt.ok (value : γ) {Reaches : Checkpoint ρ → Prop}
    (hnone : ∀ checkpoint, ¬Reaches checkpoint) : FailsAt limit (.ok value) Reaches := by
  intro error
  simp [hnone]

theorem FailsAt.bind_ok {result : Except Error γ} {Reaches : Checkpoint ρ → Prop}
    (h : FailsAt limit result Reaches) (f : γ → δ) :
    FailsAt limit (result >>= fun value => .ok (f value)) Reaches := by
  intro error
  rw [← h error, Run.bind_eq_error_iff]
  simp

theorem exists_bind_iff {ε α β : Type} {first : Except ε α} {next : α → Except ε β} :
    (∃ value, (first >>= next) = .ok value) ↔
      ∃ found, first = .ok found ∧ ∃ value, next found = .ok value := by
  cases first <;> simp

theorem exists_bind_ok_iff {ε α β : Type} {first : Except ε α} (f : α → β) :
    (∃ value, (first >>= fun found => .ok (f found)) = .ok value) ↔ ∃ found, first = .ok found := by
  cases first <;> simp

/-- A part and what follows it fail at what is reached in the row that they make. -/
theorem FailsAt.cons {α : Type} {Sound : List α → α → Prop} {At : List α → α → Checkpoint ρ → Prop}
    {seen rest : List α} {part : α} {first : Except Error γ} {next : γ → Except Error δ}
    (hfirst : FailsAt limit first (At seen part))
    (hsound : (∃ value, first = .ok value) ↔ Sound seen part)
    (hnext : ∀ value, first = .ok value →
      FailsAt limit (next value) (Reached Sound At (seen ++ [part]) rest)) :
    FailsAt limit (first >>= next) (Reached Sound At seen (part :: rest)) := by
  intro error
  simp only [Run.bind_eq_error_iff, hfirst error, reached_cons_iff, or_and_right, exists_or]
  -- The errors of the part itself are the same on both sides, so only those behind it are left.
  refine or_congr_right ?_
  constructor
  · rintro ⟨value, hvalue, hrest⟩
    rcases (hnext value hvalue error).1 hrest with ⟨checkpoint, hreached, hfails⟩
    exact ⟨checkpoint, ⟨hsound.1 ⟨value, hvalue⟩, hreached⟩, hfails⟩
  · rintro ⟨checkpoint, ⟨hpart, hreached⟩, hfails⟩
    rcases hsound.2 hpart with ⟨value, hvalue⟩
    exact ⟨value, hvalue, (hnext value hvalue error).2 ⟨checkpoint, hreached, hfails⟩⟩

/-- A loop over parts that each compile, or not, whatever the parts before them. -/
theorem FailsAt.row {α : Type} (one : Nat → α → Except Error γ)
    (row : Nat → List α → Except Error (List γ)) {Sound : α → Prop}
    {At : List α → α → Checkpoint ρ → Prop} (hnil : ∀ position, row position [] = .ok [])
    (hcons : ∀ position part parts, row position (part :: parts) = (do
      let value ← one position part
      let values ← row (position + 1) parts
      .ok (value :: values)))
    (hone : ∀ seen part, FailsAt limit (one (seen.length + 1) part) (At seen part))
    (hsound : ∀ position part, (∃ value, one position part = .ok value) ↔ Sound part)
    (seen parts : List α) :
    FailsAt limit (row (seen.length + 1) parts) (Reached (fun _ part => Sound part) At seen parts) := by
  -- The induction is on the parts that are left; of those before only the number counts.
  induction parts generalizing seen with
  | nil =>
    rw [hnil]
    exact FailsAt.ok [] fun _ => not_reached_nil
  | cons part parts ih =>
    have hrest := ih (seen ++ [part])
    rw [List.length_append, List.length_singleton] at hrest
    rw [hcons]
    exact (hone seen part).cons (hsound _ part) fun value _ => hrest.bind_ok (value :: ·)

theorem FailsAt.expanding {children : List (Node ρ)} {next : List (Node ρ) → Except Error γ}
    {Inside : List (Node ρ) → Checkpoint ρ → Prop}
    (hnext : ∀ nodes, FailsAt limit (next nodes) (Inside nodes)) :
    FailsAt limit ((expandAll limit children).result >>= next)
      (Expanding limit children Inside) := by
  intro error
  rw [Run.bind_eq_error_iff]
  constructor
  · rintro (hexpand | ⟨nodes, hexpand, hrest⟩)
    · exact ⟨_, .children, hexpand⟩
    · rcases (hnext nodes error).1 hrest with ⟨checkpoint, hinside, hfails⟩
      exact ⟨checkpoint, .inside hexpand hinside, hfails⟩
  · rintro ⟨checkpoint, ⟨⟩ | ⟨hexpand, hinside⟩, hfails⟩
    · exact .inl hfails
    · exact .inr ⟨_, hexpand, (hnext _ error).2 ⟨checkpoint, hinside, hfails⟩⟩

/-- Children that are reached do not expand. -/
def ExpansionFails (limit : Nat) (Reaches : Checkpoint ρ → Prop) (error : Error) : Prop :=
  ∃ children, Reaches (.expansion children) ∧ (expandAll limit children).result = .error error

/-- A result fails with the error of an expansion, or with a violation. -/
theorem FailsAt.eq_error_iff {result : Except Error γ} {Reaches : Checkpoint ρ → Prop}
    (h : FailsAt limit result Reaches) (error : Error) :
    result = .error error ↔ ExpansionFails limit Reaches error ∨ Reaches (.violation error) := by
  rw [h error]
  constructor
  · rintro ⟨children | found, hreaches, hfails⟩
    · exact .inl ⟨children, hreaches, hfails⟩
    · exact .inr (hfails ▸ hreaches)
  · rintro (⟨children, hreaches, hfails⟩ | hreaches)
    · exact ⟨_, hreaches, hfails⟩
    · exact ⟨_, hreaches, rfl⟩

/--
If a violation that is reached is a broken rule, and there is no result where a rule is broken, then
there is an error exactly if an expansion fails or a rule is broken.
-/
theorem FailsAt.exists_error_iff {result : Except Error γ} {Reaches : Checkpoint ρ → Prop}
    {Broken : Prop} (h : FailsAt limit result Reaches)
    (hbroken : ∀ error, Reaches (.violation error) → Broken)
    (hok : Broken → ∀ value, result ≠ .ok value) :
    (∃ error, result = .error error) ↔ (∃ error, ExpansionFails limit Reaches error) ∨ Broken := by
  constructor
  · rintro ⟨error, herror⟩
    rcases (h.eq_error_iff error).1 herror with hexpansion | hreaches
    · exact .inl ⟨error, hexpansion⟩
    · exact .inr (hbroken error hreaches)
  · rintro (⟨error, hexpansion⟩ | hrule)
    · exact ⟨error, (h.eq_error_iff error).2 (.inl hexpansion)⟩
    · -- A broken rule need not be reached, as an expansion may fail before it.
      cases hresult : result with
      | ok value => exact absurd hresult (hok hrule value)
      | error error => exact ⟨error, rfl⟩

end Results

/-! ## Steps -/

namespace StepRules

variable {ρ : Type}

/-- A step is switched off, or has exactly one behaviour. -/
def Sound (rules : StepRules) (step : Primitive ρ) : Prop :=
  step.props.disabled = true ∨ rules.Exclusive step.props

theorem Sound.exclusive {rules : StepRules} {step : Primitive ρ} (h : rules.Sound step)
    (henabled : step.props.disabled = false) : rules.Exclusive step.props := by
  rcases h with hdisabled | hexclusive
  · rw [henabled] at hdisabled
    cases hdisabled
  · exact hexclusive

/-- What is wrong with the step at a position of a unit: it sets both behaviours, or neither. -/
inductive Violation (rules : StepRules) (unit : String) (position : Nat) (props : Props) :
    Error → Prop where
  | both : props.sets rules.action = true → props.sets rules.script = true →
      Violation rules unit position props
        (.validation s!"step {props.label rules.labels position} in {unit}"
          s!"sets both '{rules.action}' and '{rules.script}'; a step takes exactly one of them")
  | neither : props.sets rules.action = false → props.sets rules.script = false →
      Violation rules unit position props
        (.validation s!"step {props.label rules.labels position} in {unit}"
          s!"must set either '{rules.action}' or '{rules.script}'")

/-- What is reached at a step behind others, switched off or not: its violation, unless it is off. -/
inductive StepReaches (rules : StepRules) (unit : String) (seen : List (Primitive ρ))
    (step : Primitive ρ) : Checkpoint ρ → Prop where
  | violation {error : Error} : step.props.disabled = false →
      rules.Violation unit (seen.length + 1) step.props error →
      StepReaches rules unit seen step (.violation error)

/-- What is reached in the steps of a unit. -/
def StepsReach (rules : StepRules) (unit : String) :
    (seen steps : List (Primitive ρ)) → Checkpoint ρ → Prop :=
  Reached (fun _ step => rules.Sound step) (rules.StepReaches unit)

theorem check_eq_error_iff (rules : StepRules) (unit : String) (position : Nat) (props : Props)
    (error : Error) :
    rules.check unit position props = .error error ↔ rules.Violation unit position props error := by
  rw [check]
  constructor
  · intro h
    split at h
    · cases h
      exact .both ‹_› ‹_›
    · cases h
      exact .neither ‹_› ‹_›
    · cases h
  · rintro (⟨haction, hscript⟩ | ⟨haction, hscript⟩) <;> simp [haction, hscript]

theorem Violation.not_exclusive {rules : StepRules} {unit : String} {position : Nat} {props : Props}
    {error : Error} (h : rules.Violation unit position props error) : ¬rules.Exclusive props := by
  rw [Exclusive, not_not]
  cases h with
  | both haction hscript => rw [haction, hscript]
  | neither haction hscript => rw [haction, hscript]

theorem failsAt_check [ExpansionRule ρ] (rules : StepRules) (limit : Nat) (unit : String)
    (seen : List (Primitive ρ)) {step : Primitive ρ} (henabled : step.props.disabled = false) :
    FailsAt limit (rules.check unit (seen.length + 1) step.props)
      (rules.StepReaches unit seen step) := by
  intro error
  rw [check_eq_error_iff]
  constructor
  · intro hviolation
    exact ⟨_, .violation henabled hviolation, rfl⟩
  · rintro ⟨_, ⟨-, hviolation⟩, rfl⟩
    exact hviolation

theorem failsAt_enabledFrom [ExpansionRule ρ] (rules : StepRules) (limit : Nat) (unit : String)
    (seen steps : List (Primitive ρ)) :
    FailsAt limit (rules.enabledFrom unit (seen.length + 1) steps).result
      (rules.StepsReach unit seen steps) := by
  induction steps generalizing seen with
  | nil => exact FailsAt.ok [] fun _ => not_reached_nil
  | cons step steps ih =>
    have hrest := ih (seen ++ [step])
    rw [List.length_append, List.length_singleton] at hrest
    rw [result_enabledFrom_cons]
    cases hdisabled : step.props.disabled with
    | true =>
      -- Nothing is reached at a step that is off, but it counts for the positions of later ones.
      have hnone : ∀ checkpoint, ¬rules.StepReaches unit seen step checkpoint := by
        rintro _ ⟨henabled, -⟩
        rw [hdisabled] at henabled
        cases henabled
      have hsound : (∃ value, (.ok () : Except Error Unit) = .ok value) ↔ rules.Sound step :=
        iff_of_true ⟨(), rfl⟩ (.inl hdisabled)
      exact (FailsAt.ok () hnone).cons hsound fun _ _ => hrest
    | false =>
      have hsound : (∃ value, rules.check unit (seen.length + 1) step.props = .ok value) ↔
          rules.Sound step := by
        simp [check_eq_ok_iff, Sound, hdisabled]
      rw [if_neg Bool.false_ne_true]
      exact (rules.failsAt_check limit unit seen hdisabled).cons hsound
        fun _ _ => hrest.bind_ok (step :: ·)

/-- The steps of a unit are refused for the first of them that is not sound. -/
theorem result_enabledFrom_eq_error_iff [ExpansionRule ρ] (rules : StepRules) (unit : String)
    (steps : List (Primitive ρ)) (error : Error) :
    (rules.enabledFrom unit 1 steps).result = .error error ↔
      ∃ before step after, steps = before ++ step :: after ∧
        (∀ other ∈ before, rules.Sound other) ∧ step.props.disabled = false ∧
        rules.Violation unit (before.length + 1) step.props error := by
  -- Among steps nothing is expanded, so the limit does not matter.
  refine (rules.failsAt_enabledFrom 0 unit [] steps error).trans ?_
  constructor
  · rintro ⟨checkpoint, hreached, hfails⟩
    rcases reached_iff_exists_part.1 hreached with
      ⟨before, step, after, hsteps, hbefore, ⟨henabled, hviolation⟩⟩
    cases hfails
    exact ⟨before, step, after, hsteps, hbefore, henabled, hviolation⟩
  · rintro ⟨before, step, after, hsteps, hbefore, henabled, hviolation⟩
    have hstep : rules.StepReaches unit ([] ++ before) step (.violation error) :=
      .violation henabled hviolation
    exact ⟨_, reached_iff_exists_part.2 ⟨before, step, after, hsteps, hbefore, hstep⟩, rfl⟩

theorem exists_step_of_stepsReach {rules : StepRules} {unit : String}
    {seen steps : List (Primitive ρ)} {error : Error}
    (h : rules.StepsReach unit seen steps (.violation error)) :
    ∃ step ∈ steps, step.props.disabled = false ∧ ¬rules.Exclusive step.props := by
  rcases Reached.exists_mem h with ⟨_, step, hstep, ⟨henabled, hviolation⟩⟩
  exact ⟨step, hstep, henabled, hviolation.not_exclusive⟩

theorem exists_keeps_iff (rules : StepRules) (steps : List (Primitive ρ)) :
    (∃ kept, rules.Keeps steps kept) ↔ ∀ step ∈ steps, rules.Sound step := by
  simp only [Keeps, exists_eq_left, List.mem_filter, Bool.not_eq_true', and_imp, Sound]
  refine forall₂_congr fun step _ => ?_
  cases step.props.disabled <;> simp

theorem exists_enabledFrom_iff (rules : StepRules) (unit : String) (position : Nat)
    (steps : List (Primitive ρ)) :
    (∃ kept, (rules.enabledFrom unit position steps).result = .ok kept) ↔
      ∀ step ∈ steps, rules.Sound step := by
  simp only [result_enabledFrom_eq_ok_iff, exists_keeps_iff]

end StepRules

/-! ## Units -/

variable {ρ : Type} [ExpansionRule ρ]

/-- The children of a unit expand, and each of its steps is sound. -/
def UnitSound (rules : StepRules) (limit : Nat) (leaf : Kind) (children : List (Node ρ)) : Prop :=
  ∃ nodes, (expandAll limit children).result = .ok nodes ∧
    ∀ step ∈ Primitive.ofKind leaf nodes, rules.Sound step

/-- What is reached in a unit: its children, and then its steps. -/
def UnitReaches (rules : StepRules) (limit : Nat) (leaf : Kind) (unit : String)
    (children : List (Node ρ)) : Checkpoint ρ → Prop :=
  Expanding limit children fun nodes => rules.StepsReach unit [] (Primitive.ofKind leaf nodes)

theorem failsAt_resultOfUnit (rules : StepRules) (limit : Nat) (leaf : Kind) (unit : String)
    (children : List (Node ρ)) :
    FailsAt limit (resultOfUnit rules limit leaf unit children)
      (UnitReaches rules limit leaf unit children) :=
  FailsAt.expanding fun nodes =>
    rules.failsAt_enabledFrom limit unit [] (Primitive.ofKind leaf nodes)

theorem exists_resultOfUnit_iff (rules : StepRules) (limit : Nat) (leaf : Kind) (unit : String)
    (children : List (Node ρ)) :
    (∃ kept, resultOfUnit rules limit leaf unit children = .ok kept) ↔
      UnitSound rules limit leaf children := by
  simp only [resultOfUnit, UnitSound, exists_bind_iff, StepRules.exists_enabledFrom_iff]

/-- A violation that is reached in a unit is that of a step that is on. -/
theorem UnitReaches.exists_step {rules : StepRules} {limit : Nat} {leaf : Kind} {unit : String}
    {children : List (Node ρ)} {error : Error}
    (h : UnitReaches rules limit leaf unit children (.violation error)) :
    ∃ nodes, (expandAll limit children).result = .ok nodes ∧
      ∃ step ∈ Primitive.ofKind leaf nodes, step.props.disabled = false ∧
        ¬rules.Exclusive step.props := by
  cases h with
  | @inside nodes _ hexpand hsteps =>
    exact ⟨nodes, hexpand, StepRules.exists_step_of_stepsReach hsteps⟩

/-- A step of a sound unit that is on has exactly one behaviour. -/
theorem UnitSound.exclusive {rules : StepRules} {limit : Nat} {leaf : Kind}
    {children leaves : List (Node ρ)} (h : UnitSound rules limit leaf children)
    (hleaves : (expandAll limit children).result = .ok leaves) {step : Primitive ρ}
    (hstep : step ∈ Primitive.ofKind leaf leaves) (henabled : step.props.disabled = false) :
    rules.Exclusive step.props := by
  rcases h with ⟨nodes, hnodes, hsound⟩
  cases hleaves.symm.trans hnodes
  exact (hsound step hstep).exclusive henabled

end PipelineTree
