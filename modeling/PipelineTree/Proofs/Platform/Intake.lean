import PipelineTree.Proofs.Expansion.Log
import PipelineTree.Proofs.Platform.Parts
import PipelineTree.Proofs.Value.Renaming

/-!
# Intake — what becomes of the nodes at a level of a document

Each level of a document takes in the primitives of one kind.  An `Intake` says how a level compiles such a
primitive, when it leaves one out and with which event, and how it warns of all other nodes.
`Intake.Accounts` goes through the nodes of a level one by one: each of them makes one entry, or is left
out with one event, or is warned of once.  The entries and the log of the level are nothing but what the
nodes contribute, in their order.
-/

namespace PipelineTree

/-- How a level of a document deals with its nodes. -/
structure Intake (ρ ε : Type) where
  /-- the kind that is accepted at the level -/
  accepts : Kind
  /-- the warning of a node that is of no accepted kind -/
  warning : Node ρ → Event
  /-- the primitive at a position makes an entry, with a log of its own from the levels below -/
  Compiles : (position : Nat) → Primitive ρ → (entry : ε) → (logged : List Event) → Prop
  /-- the primitive at a position is left out, and an event says so -/
  Drops : (position : Nat) → Primitive ρ → Event → Prop

namespace Intake

variable {ρ ε : Type}

/--
The nodes of a level, with what they contribute: entries, warnings, and what is logged for the nodes of the
accepted kind.  Only the latter count for positions.
-/
inductive Accounts (intake : Intake ρ ε) :
    (position : Nat) → List (Node ρ) → (entries : List ε) → (warnings inner : List Event) → Prop where
  | nil (position : Nat) : Accounts intake position [] [] [] []
  | compiled {position : Nat} {node : Node ρ} {nodes : List (Node ρ)} {p : Primitive ρ} {entry : ε}
      {entries : List ε} {logged warnings inner : List Event} :
      node.primitive? = some p → p.kind = intake.accepts → intake.Compiles position p entry logged →
        Accounts intake (position + 1) nodes entries warnings inner →
        Accounts intake position (node :: nodes) (entry :: entries) warnings (logged ++ inner)
  | dropped {position : Nat} {node : Node ρ} {nodes : List (Node ρ)} {p : Primitive ρ} {event : Event}
      {entries : List ε} {warnings inner : List Event} :
      node.primitive? = some p → p.kind = intake.accepts → intake.Drops position p event →
        Accounts intake (position + 1) nodes entries warnings inner →
        Accounts intake position (node :: nodes) entries warnings (event :: inner)
  | refused {position : Nat} {node : Node ρ} {nodes : List (Node ρ)} {entries : List ε}
      {warnings inner : List Event} :
      node.isKind intake.accepts = false →
        Accounts intake position nodes entries warnings inner →
        Accounts intake position (node :: nodes) entries (intake.warning node :: warnings) inner

/-- The primitives of the accepted kind alone, with what they contribute. -/
inductive Row (intake : Intake ρ ε) :
    (position : Nat) → List (Primitive ρ) → (entries : List ε) → (inner : List Event) → Prop where
  | nil (position : Nat) : Row intake position [] [] []
  | compiled {position : Nat} {p : Primitive ρ} {ps : List (Primitive ρ)} {entry : ε}
      {entries : List ε} {logged inner : List Event} :
      intake.Compiles position p entry logged → Row intake (position + 1) ps entries inner →
        Row intake position (p :: ps) (entry :: entries) (logged ++ inner)
  | dropped {position : Nat} {p : Primitive ρ} {ps : List (Primitive ρ)} {event : Event}
      {entries : List ε} {inner : List Event} :
      intake.Drops position p event → Row intake (position + 1) ps entries inner →
        Row intake position (p :: ps) entries (event :: inner)

/-- With the warnings of all other nodes, the primitives of the accepted kind account for a level. -/
theorem Row.accounts {intake : Intake ρ ε} {position : Nat} {nodes : List (Node ρ)}
    {entries : List ε} {inner : List Event}
    (h : intake.Row position (Primitive.ofKind intake.accepts nodes) entries inner) :
    intake.Accounts position nodes entries
      ((nodes.filter (!·.isKind intake.accepts)).map intake.warning) inner := by
  induction nodes generalizing position entries inner with
  | nil =>
    cases h
    exact .nil position
  | cons node nodes ih =>
    cases hkind : node.isKind intake.accepts with
    | false =>
      have hrest : Primitive.ofKind intake.accepts (node :: nodes) =
          Primitive.ofKind intake.accepts nodes := by
        simp [← Primitive.filterMap_filter_isKind, hkind]
      have haccounts := ih (hrest ▸ h)
      simpa [hkind] using Accounts.refused hkind haccounts
    | true =>
      -- An accepted node is the first primitive of the row, so the row says what becomes of it.
      rcases Node.isKind_iff.1 hkind with ⟨p, hp, haccepted⟩
      have hfirst : Primitive.ofKind intake.accepts (node :: nodes) =
          p :: Primitive.ofKind intake.accepts nodes := by
        simp [Primitive.ofKind, hp, haccepted]
      have hrow := hfirst ▸ h
      cases hrow with
      | compiled hcompiles hrest =>
        simpa [hkind] using Accounts.compiled hp haccepted hcompiles (ih hrest)
      | dropped hdrops hrest =>
        simpa [hkind] using Accounts.dropped hp haccepted hdrops (ih hrest)

/-- A loop that compiles one primitive after the other, counting them, makes a row. -/
theorem row_of_yields_loop {intake : Intake ρ ε} (compile : Nat → Primitive ρ → Run ε)
    (loop : Nat → List (Primitive ρ) → Run (List ε)) (hnil : ∀ position, loop position [] = .done [])
    (hcons : ∀ position p ps, loop position (p :: ps) = do
      let entry ← compile position p
      let entries ← loop (position + 1) ps
      pure (entry :: entries))
    (hcompiles : ∀ {position : Nat} {p : Primitive ρ} {entry : ε} {logged : List Event},
      (compile position p).Yields entry logged → intake.Compiles position p entry logged)
    {position : Nat} {ps : List (Primitive ρ)} {entries : List ε} {logged : List Event}
    (h : (loop position ps).Yields entries logged) : intake.Row position ps entries logged := by
  induction ps generalizing position entries logged with
  | nil =>
    rw [hnil] at h
    rcases Run.yields_done_iff.1 h with ⟨rfl, rfl⟩
    exact .nil position
  | cons p ps ih =>
    simp only [hcons, Run.bind_eq, Run.pure_eq, Run.yields_andThen_iff, Run.yields_done_iff] at h
    rcases h with ⟨entry, first, _, hentry, ⟨others, rest, _, hothers, ⟨rfl, rfl⟩, rfl⟩, rfl⟩
    have hrow := Row.compiled (hcompiles hentry) (ih hothers)
    simpa using hrow

variable [ExpansionRule ρ]

/--
Every expanded child of a node is accounted for at a level.  The log of the level has the warnings first, in
document order, then what is logged for the accepted nodes, and nothing else.
-/
def Takes (intake : Intake ρ ε) (limit : Nat) (children : List (Node ρ)) (entries : List ε)
    (logged : List Event) : Prop :=
  ∃ nodes warnings inner, (expandAll limit children).result = .ok nodes ∧
    intake.Accounts 1 nodes entries warnings inner ∧ logged = warnings ++ inner

theorem Row.takes {intake : Intake ρ ε} {limit : Nat} {children nodes : List (Node ρ)}
    {entries : List ε} {inner : List Event}
    (hnodes : (expandAll limit children).result = .ok nodes)
    (h : intake.Row 1 (Primitive.ofKind intake.accepts nodes) entries inner) :
    intake.Takes limit children entries
      ((nodes.filter (!·.isKind intake.accepts)).map intake.warning ++ inner) :=
  ⟨nodes, _, inner, hnodes, h.accounts, rfl⟩

end Intake

/-! ## Where a document lists its parts -/

/-- The parts that a document lists under a name. -/
def Value.listed (name : String) (document : Value) : List Value :=
  match document.field? name with
  | some (.sequence items) => items
  | _ => []

theorem Props.field?_select {props : Props} {fields : List String} {name : String}
    (hname : name ∉ fields) : (Value.mapping (props.select fields)).field? name = none := by
  simp [Value.field?, Props.lookup_select, hname]

theorem field?_documentWith (props : Props) {fields : List String} {name : String}
    (hname : name ∉ fields) (value : Value) :
    (documentWith (props.select fields) name value).field? name = some value := by
  simp [documentWith, Value.field?, List.lookup_append, Props.lookup_select, hname]

theorem listed_documentWith (props : Props) {fields : List String} {name : String}
    (hname : name ∉ fields) (items : List Value) :
    (documentWith (props.select fields) name (.sequence items)).listed name = items := by
  simp [Value.listed, field?_documentWith props hname]

/-! ## Steps -/

variable {ρ : Type}

/-- The level of the steps of a unit: a step that is on is compiled, one that is switched off is left out. -/
def Intake.steps (leaf : Kind) (fields : List String) (unit : String) (warning : Node ρ → Event) :
    Intake ρ Value where
  accepts := leaf
  warning := warning
  Compiles _ step value logged :=
    step.props.disabled = false ∧ step.props.Record fields [] value ∧ logged = []
  Drops position step event :=
    step.props.disabled = true ∧ event = .disabledStep unit position

theorem row_of_yields_enabledFrom {rules : StepRules} {leaf : Kind} {fields : List String}
    {unit : String} {warning : Node ρ → Event} {position : Nat} {steps kept : List (Primitive ρ)}
    {logged : List Event} (h : (rules.enabledFrom unit position steps).Yields kept logged) :
    (Intake.steps leaf fields unit warning).Row position steps
      (kept.map fun step => .mapping (step.props.select fields)) logged := by
  induction steps generalizing position kept logged with
  | nil =>
    rcases Run.yields_done_iff.1 h with ⟨rfl, rfl⟩
    exact .nil position
  | cons step steps ih =>
    simp only [StepRules.enabledFrom] at h
    split at h
    · rename_i hdisabled
      simp only [Run.bind_eq, Run.yields_andThen_iff, Run.yields_report_iff] at h
      rcases h with ⟨_, _, rest, rfl, hrest, rfl⟩
      exact .dropped ⟨hdisabled, rfl⟩ (ih hrest)
    · rename_i henabled
      simp only [Run.bind_eq, Run.pure_eq, Run.yields_andThen_iff, Run.yields_ofExcept_iff,
        Run.yields_done_iff] at h
      rcases h with ⟨_, _, _, ⟨-, rfl⟩, ⟨others, rest, _, hrest, ⟨rfl, rfl⟩, rfl⟩, rfl⟩
      have hrecord : step.props.Record fields [] (.mapping (step.props.select fields)) :=
        Props.record_iff.2 (by simp)
      have hcompiles : (Intake.steps leaf fields unit warning).Compiles position step
          (.mapping (step.props.select fields)) [] :=
        ⟨by simpa using henabled, hrecord, rfl⟩
      have hrow := Intake.Row.compiled hcompiles (ih hrest)
      simpa using hrow

variable [ExpansionRule ρ]

/-- The steps of a unit are collected child by child; nodes of other kinds are warned of as foreign. -/
theorem takes_of_yields_unit {rules : StepRules} {leaf : Kind} {fields : List String} {unit : String}
    {limit : Nat} {children leaves : List (Node ρ)} {kept : List (Primitive ρ)}
    {foreign logged : List Event} (hleaves : (collectLeaves limit leaf children).Yields leaves foreign)
    (hkept : (rules.enabled unit leaves).Yields kept logged) :
    (Intake.steps leaf fields unit fun node => .foreignNode leaf node.kindName).Takes limit children
      (kept.map fun step => .mapping (step.props.select fields)) (foreign ++ logged) := by
  rcases yields_collectLeaves hleaves with ⟨nodes, hnodes, rfl, rfl⟩
  simp only [StepRules.enabled, Primitive.filterMap_filter_isKind] at hkept
  exact Intake.Row.takes hnodes (row_of_yields_enabledFrom hkept)

/-! ## Warnings -/

theorem log_unacceptedEvents (accepted : List Kind) (context : String) (nodes : List (Node ρ)) :
    (unacceptedEvents accepted context nodes).filter (·.level != .trace) =
      unacceptedEvents accepted context nodes := by
  rw [List.filter_eq_self]
  intro event hevent
  rcases List.mem_map.1 hevent with ⟨node, -, rfl⟩
  rfl

/-- A level that accepts one kind warns of the nodes that are not of this kind, and then goes on. -/
theorem yields_warned_iff {α : Type} {kind : Kind} {context : String} {nodes : List (Node ρ)}
    {next : Unit → Run α} {last : α} {logged : List Event} :
    ((Run.report (unacceptedEvents [kind] context nodes)).andThen next).Yields last logged ↔
      ∃ inner, (next ()).Yields last inner ∧
        logged = (nodes.filter (!·.isKind kind)).map
          (fun node => .unacceptedNode node.kindName context) ++ inner := by
  have hlog : (unacceptedEvents [kind] context nodes).filter (·.level != .trace) =
      (nodes.filter (!·.isKind kind)).map fun node => .unacceptedNode node.kindName context := by
    rw [log_unacceptedEvents]
    simp [unacceptedEvents]
  simp only [Run.yields_andThen_iff, Run.yields_report_iff, hlog]
  constructor
  · rintro ⟨_, _, inner, rfl, hinner, rfl⟩
    exact ⟨inner, hinner, rfl⟩
  · rintro ⟨inner, hinner, rfl⟩
    exact ⟨(), _, inner, rfl, hinner, rfl⟩

end PipelineTree
