import Mathlib.Data.List.Forall2
import PipelineTree.Platform.Compiler
import PipelineTree.Proofs.Expansion.Results
import PipelineTree.Proofs.Value.Entries
import PipelineTree.Proofs.Value.Pairing

/-!
# Parts — what the parts of a document hold

Platforms build documents from two sorts of parts, described here without the functions that build them:

* `Props.Record`: the listed properties that are set, in the order of the list, before further entries;
* `UnitSteps`: the steps of a unit that count.
-/

namespace PipelineTree

/-! ## Listed properties -/

namespace Props

/-- The entry that a property makes: its name, and its value as it is, unless that is null. -/
def IsEntry (props : Props) (name : String) (entry : Value × Value) : Prop :=
  entry.1 = .text name ∧ props.lookup name = some entry.2 ∧ entry.2.isNull = false

/-- Entries for the names that are set, one each, in the order of the names. -/
def Lists (props : Props) (names : List String) (entries : Mapping) : Prop :=
  List.Forall₂ props.IsEntry (names.filter props.sets) entries

/-- A mapping of the listed properties that are set, with more entries behind them. -/
def Record (props : Props) (names : List String) (more : Mapping) (document : Value) : Prop :=
  ∃ entries, props.Lists names entries ∧ document = .mapping (entries ++ more)

theorem value?_eq_some_iff {props : Props} {name : String} {value : Value} :
    props.value? name = some value ↔ props.lookup name = some value ∧ value.isNull = false := by
  rw [value?, Option.filter_eq_some_iff]
  simp

theorem isEntry_iff {props : Props} {name : String} {entry : Value × Value} :
    props.IsEntry name entry ↔ entry.1 = .text name ∧ props.value? name = some entry.2 := by
  rw [IsEntry, value?_eq_some_iff]

theorem lists_select (props : Props) (names : List String) :
    props.Lists names (props.select names) := by
  induction names with
  | nil => exact .nil
  | cons name names ih =>
    -- A name that is not set makes no entry on either side.
    cases hvalue : props.value? name with
    | none => simpa [Lists, select, sets, hvalue] using ih
    | some value =>
      have hentry : props.IsEntry name (.text name, value) := isEntry_iff.2 ⟨rfl, hvalue⟩
      simpa [Lists, select, sets, hvalue] using And.intro hentry ih

theorem isEntry_rightUnique (props : Props) : Relator.RightUnique props.IsEntry := by
  rintro name ⟨key, value⟩ ⟨key', value'⟩ ⟨hkey, hvalue, -⟩ ⟨hkey', hvalue', -⟩
  have hkeys : key = key' := hkey.trans hkey'.symm
  have hvalues : value = value' := Option.some.inj (hvalue.symm.trans hvalue')
  rw [hkeys, hvalues]

theorem Lists.eq_select {props : Props} {names : List String} {entries : Mapping}
    (h : props.Lists names entries) : entries = props.select names :=
  List.right_unique_forall₂' props.isEntry_rightUnique h (lists_select props names)

theorem record_iff {props : Props} {names : List String} {more : Mapping} {document : Value} :
    props.Record names more document ↔ document = .mapping (props.select names ++ more) := by
  constructor
  · rintro ⟨entries, hentries, rfl⟩
    rw [hentries.eq_select]
  · rintro rfl
    exact ⟨_, lists_select props names, rfl⟩

theorem lookup_select (props : Props) (names : List String) (name : String) :
    (props.select names).lookup (.text name) =
      if name ∈ names then props.value? name else none := by
  induction names with
  | nil => rfl
  | cons first names ih =>
    rw [select] at ih ⊢
    by_cases hname : first = name
    · subst hname
      cases hvalue : props.value? first <;> simp [hvalue, ih, Entries.lookup_cons_text]
    · have hne : ¬name = first := Ne.symm hname
      cases hvalue : props.value? first <;>
        simp [hvalue, ih, hname, hne, Entries.lookup_cons_text]

theorem forall₂_record_iff {ρ : Type} (names : List String) (parts : List (Primitive ρ))
    (documents : List Value) :
    List.Forall₂ (fun part document => part.props.Record names [] document) parts documents ↔
      documents = parts.map fun part => .mapping (part.props.select names) := by
  simp only [record_iff, List.append_nil]
  induction parts generalizing documents with
  | nil => simp
  | cons part parts ih =>
    rw [List.forall₂_cons_left_iff]
    simp [ih]

end Props

/-! ## Parts in a row -/

theorem forall₂_cons_iff_of_bind {α β : Type} {R : α → β → Prop} {part : α} {parts : List α}
    {first : Except Error β} {others : Except Error (List β)}
    (hfirst : ∀ value, first = .ok value ↔ R part value)
    (hothers : ∀ values, others = .ok values ↔ List.Forall₂ R parts values) (values : List β) :
    (do
      let value ← first
      let rest ← others
      .ok (value :: rest) : Except Error (List β)) = .ok values ↔
      List.Forall₂ R (part :: parts) values := by
  simp only [Run.bind_eq_ok_iff, hfirst, hothers, Except.ok.injEq]
  constructor
  · rintro ⟨value, hvalue, rest, hrest, rfl⟩
    exact .cons hvalue hrest
  · intro h
    rcases List.forall₂_cons_left_iff.1 h with ⟨value, rest, hvalue, hrest, rfl⟩
    exact ⟨value, hvalue, rest, hrest, rfl⟩

/-! ## Primitives of a kind -/

section Primitives

variable {ρ : Type}

theorem Node.isKind_iff {kind : Kind} {node : Node ρ} :
    node.isKind kind = true ↔ ∃ p, node.primitive? = some p ∧ p.kind = kind := by
  cases node <;> simp [isKind, kind?, primitive?]

theorem Primitive.filterMap_filter_isKind (kind : Kind) (nodes : List (Node ρ)) :
    (nodes.filter (·.isKind kind)).filterMap Node.primitive? = Primitive.ofKind kind nodes := by
  rw [ofKind, List.filter_filterMap, List.filterMap_filter]
  refine List.filterMap_congr ?_
  intro node _
  cases node <;> simp [Node.isKind, Node.kind?, Node.primitive?, Option.filter_some]

theorem Primitive.ofKind_cons_primitive (leaf kind : Kind) (props : Props)
    (children nodes : List (Node ρ)) :
    Primitive.ofKind leaf (.primitive kind props children :: nodes) =
      if kind = leaf then ⟨kind, props, children⟩ :: Primitive.ofKind leaf nodes
      else Primitive.ofKind leaf nodes := by
  by_cases hkind : kind = leaf <;> simp [ofKind, Node.primitive?, hkind]

theorem Primitive.ofKind_eq_nil_iff {kind : Kind} {nodes : List (Node ρ)} :
    Primitive.ofKind kind nodes = [] ↔ ∀ node ∈ nodes, node.isKind kind = false := by
  rw [← filterMap_filter_isKind]
  constructor
  · intro hnil node hnode
    by_contra hkind
    rw [Bool.not_eq_false] at hkind
    rcases Node.isKind_iff.1 hkind with ⟨p, hp, -⟩
    have : p ∈ (nodes.filter (·.isKind kind)).filterMap Node.primitive? :=
      List.mem_filterMap.2 ⟨node, List.mem_filter.2 ⟨hnode, hkind⟩, hp⟩
    simp [hnil] at this
  · intro hnone
    have : nodes.filter (·.isKind kind) = [] := by
      rw [List.filter_eq_nil_iff]
      intro node hnode
      simp [hnone node hnode]
    rw [this]
    rfl

end Primitives

/-! ## Steps -/

namespace StepRules

variable {ρ : Type}

/-- Exactly one of the two behaviours is set. -/
def Exclusive (rules : StepRules) (props : Props) : Prop :=
  props.sets rules.action ≠ props.sets rules.script

/-- The steps that are not switched off, in order; each has exactly one behaviour. -/
def Keeps (rules : StepRules) (steps kept : List (Primitive ρ)) : Prop :=
  kept = steps.filter (!·.props.disabled) ∧ ∀ step ∈ kept, rules.Exclusive step.props

theorem check_eq_ok_iff (rules : StepRules) (unit : String) (position : Nat) (props : Props)
    (value : Unit) : rules.check unit position props = .ok value ↔ rules.Exclusive props := by
  rw [check, Exclusive]
  cases props.sets rules.action <;> cases props.sets rules.script <;> simp

theorem keeps_nil (rules : StepRules) : rules.Keeps ([] : List (Primitive ρ)) [] :=
  ⟨rfl, by simp⟩

theorem keeps_cons_disabled {rules : StepRules} {step : Primitive ρ} {steps kept : List (Primitive ρ)}
    (hdisabled : step.props.disabled = true) :
    rules.Keeps (step :: steps) kept ↔ rules.Keeps steps kept := by
  simp [Keeps, hdisabled]

theorem keeps_cons_enabled {rules : StepRules} {step : Primitive ρ} {steps kept : List (Primitive ρ)}
    (henabled : step.props.disabled = false) :
    rules.Keeps (step :: steps) kept ↔
      rules.Exclusive step.props ∧ ∃ rest, rules.Keeps steps rest ∧ step :: rest = kept := by
  constructor
  · rintro ⟨rfl, hexclusive⟩
    simp only [List.filter_cons, henabled, Bool.not_false, if_true, List.forall_mem_cons] at hexclusive ⊢
    exact ⟨hexclusive.1, _, ⟨rfl, hexclusive.2⟩, rfl⟩
  · rintro ⟨hstep, rest, ⟨rfl, hrest⟩, rfl⟩
    refine ⟨by simp [henabled], ?_⟩
    simpa using And.intro hstep hrest

theorem result_enabledFrom_cons (rules : StepRules) (unit : String) (position : Nat)
    (step : Primitive ρ) (steps : List (Primitive ρ)) :
    (rules.enabledFrom unit position (step :: steps)).result =
      if step.props.disabled then (rules.enabledFrom unit (position + 1) steps).result
      else (do
        rules.check unit position step.props
        let kept ← (rules.enabledFrom unit (position + 1) steps).result
        .ok (step :: kept)) := by
  rw [enabledFrom]
  split
  · simp only [Run.bind_eq, Run.result_andThen, Run.result_report, Run.ok_bind]
  · simp only [Run.bind_eq, Run.pure_eq, Run.result_andThen, Run.result_ofExcept, Run.result_done]

theorem result_enabledFrom_eq_ok_iff (rules : StepRules) (unit : String) (position : Nat)
    (steps kept : List (Primitive ρ)) :
    (rules.enabledFrom unit position steps).result = .ok kept ↔ rules.Keeps steps kept := by
  induction steps generalizing position kept with
  | nil =>
    constructor
    · rintro ⟨⟩
      exact rules.keeps_nil
    · rintro ⟨rfl, -⟩
      rfl
  | cons step steps ih =>
    rw [result_enabledFrom_cons]
    cases hdisabled : step.props.disabled with
    | true =>
      -- A step that is off is passed over before its behaviour is checked.
      rw [if_pos rfl, keeps_cons_disabled hdisabled, ih (position + 1)]
    | false =>
      rw [if_neg (by simp), keeps_cons_enabled hdisabled]
      simp only [Run.bind_eq_ok_iff, check_eq_ok_iff, ih, Except.ok.injEq, exists_const]

end StepRules

variable {ρ : Type} [ExpansionRule ρ]

/--
The steps of a unit that count: the primitives of the kind of steps among its expanded children, without
those that are switched off.
-/
def UnitSteps (rules : StepRules) (limit : Nat) (leaf : Kind) (children : List (Node ρ))
    (kept : List (Primitive ρ)) : Prop :=
  ∃ nodes, (expandAll limit children).result = .ok nodes ∧
    rules.Keeps (Primitive.ofKind leaf nodes) kept

/-- The result of collecting and checking the steps of a unit. -/
def resultOfUnit (rules : StepRules) (limit : Nat) (leaf : Kind) (unit : String)
    (children : List (Node ρ)) : Except Error (List (Primitive ρ)) := do
  let nodes ← (expandAll limit children).result
  (rules.enabledFrom unit 1 (Primitive.ofKind leaf nodes)).result

theorem result_unitSteps (rules : StepRules) (limit : Nat) (leaf : Kind) (unit : String)
    (children : List (Node ρ)) :
    ((collectLeaves limit leaf children).andThen (rules.enabled unit)).result =
      resultOfUnit rules limit leaf unit children := by
  rw [Run.result_andThen, result_collectLeaves, resultOfUnit]
  cases (expandAll limit children).result with
  | error error => rfl
  | ok nodes =>
    simp only [Except.map, Run.ok_bind, StepRules.enabled, Primitive.filterMap_filter_isKind]

theorem resultOfUnit_eq_ok_iff (rules : StepRules) (limit : Nat) (leaf : Kind) (unit : String)
    (children : List (Node ρ)) (kept : List (Primitive ρ)) :
    resultOfUnit rules limit leaf unit children = .ok kept ↔
      UnitSteps rules limit leaf children kept := by
  rw [resultOfUnit, Run.bind_eq_ok_iff, UnitSteps]
  simp only [StepRules.result_enabledFrom_eq_ok_iff]

end PipelineTree
