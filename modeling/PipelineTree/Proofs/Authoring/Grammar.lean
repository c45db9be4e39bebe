import Mathlib.Data.List.Permutation
import PipelineTree.Proofs.Authoring.Denotation
import PipelineTree.Proofs.Value.Entries

/-!
# Grammar — how trees are meant to be written

`Authoring.Written` is the documented grammar of authored trees, with the nodes that each form stands
for: keys are plain texts, no name occurs twice, and nothing stands beside `use` but `with`.  It is
narrower than `Authoring.Denotes`, which describes all that the reader takes.

Whatever is written in this grammar is read as the nodes it stands for, and `Authoring.write` writes
every tree that can be written at all (`Authoring.written_complete`).
-/

namespace PipelineTree

/-- No name occurs twice. -/
def Props.NamesDistinct (props : Props) : Prop := (props.map Prod.fst).Nodup

instance (props : Props) : Decidable props.NamesDistinct :=
  inferInstanceAs (Decidable (props.map Prod.fst).Nodup)

namespace Authoring

/-! ## The grammar -/

/-- Properties as the entries of a mapping, in the same order. -/
def fieldsOf (props : Props) : Mapping := props.map fun (name, value) => (.text name, value)

/-- What may be written under `with`, and the arguments it stands for. -/
inductive WrittenArguments : Value → Props → Prop where
  | null : WrittenArguments .null []
  | mapping {arguments : Props} :
      arguments.NamesDistinct → WrittenArguments (.mapping (fieldsOf arguments)) arguments

/-- The forms in which a slot may be written, and the nodes that they stand for. -/
inductive Written (templates : Templates) : Value → List (Node TemplateUse) → Prop where
  | null : Written templates .null []
  | bool (b : Bool) : Written templates (.bool b) []
  | nil : Written templates (.sequence []) []
  | cons {item : Value} {items : List Value} {nodes others : List (Node TemplateUse)} :
      Written templates item nodes → Written templates (.sequence items) others →
        Written templates (.sequence (item :: items)) (nodes ++ others)
  | group {body : Value} {nodes : List (Node TemplateUse)} :
      Written templates body nodes →
        Written templates (.mapping [(.text "group", body)]) [.group nodes]
  | bare (kind : Kind) :
      Written templates (.mapping [(.text kind.name, .null)]) [.primitive kind [] []]
  | primitive {kind : Kind} {props : Props} {nodes : List (Node TemplateUse)} :
      props.NamesDistinct → Written templates ((props.lookup "children").getD .null) nodes →
        Written templates (.mapping [(.text kind.name, .mapping (fieldsOf props))])
          [.primitive kind (Entries.erase "children" props) nodes]
  | use {name : String} :
      Entries.contains name templates = true →
        Written templates (.mapping [(.text "use", .text name)]) [.custom ⟨name, templates⟩ []]
  | useWith {name : String} {entries : Mapping} {bindings : Value} {arguments : Props} :
      Entries.contains name templates = true →
        entries.Perm [(.text "use", .text name), (.text "with", bindings)] →
        WrittenArguments bindings arguments →
        Written templates (.mapping entries) [.custom ⟨name, templates⟩ arguments]

/-- Trees of primitives without a property `children`, groups, and uses of declared macros. -/
inductive Writable (templates : Templates) : Node TemplateUse → Prop where
  | primitive {kind : Kind} {props : Props} {children : List (Node TemplateUse)} :
      props.NamesDistinct → (∀ property ∈ props, property.1 ≠ "children") →
        (∀ child ∈ children, Writable templates child) →
        Writable templates (.primitive kind props children)
  | group {children : List (Node TemplateUse)} :
      (∀ child ∈ children, Writable templates child) → Writable templates (.group children)
  | custom {name : String} {arguments : Props} :
      Entries.contains name templates = true → arguments.NamesDistinct →
        Writable templates (.custom ⟨name, templates⟩ arguments)

/-! ## What is written denotes -/

theorem named_fieldsOf (props : Props) : Named (fieldsOf props) props := by
  induction props with
  | nil => exact .nil
  | cons property props ih => exact .cons ⟨rfl, rfl⟩ ih

theorem ofList_of_namesDistinct {props : Props} (h : props.NamesDistinct) :
    Entries.ofList props = props := by
  have hkeys : props.Pairwise fun p q => p.1 ≠ q.1 := List.pairwise_map.1 h
  apply Entries.ofList_eq_self
  exact hkeys.imp fun hne => by simpa using hne

theorem forall_name_ne_iff {props : Props} {name : String} :
    (∀ property ∈ props, property.1 ≠ name) ↔ name ∉ props.map Prod.fst := by
  rw [List.mem_map, not_exists]
  simp only [not_and]

theorem field_of_mem_fieldsOf {props : Props} {field : Value × Value}
    (h : field ∈ fieldsOf props) : ∃ property ∈ props, field = (.text property.1, property.2) := by
  rcases List.mem_map.1 h with ⟨property, hproperty, rfl⟩
  exact ⟨property, hproperty, rfl⟩

theorem mem_fieldsOf {props : Props} {name : String} {value : Value} :
    (.text name, value) ∈ fieldsOf props ↔ (name, value) ∈ props := by
  constructor
  · intro h
    rcases field_of_mem_fieldsOf h with ⟨property, hproperty, heq⟩
    cases heq
    exact hproperty
  · intro h
    exact List.mem_map.2 ⟨_, h, rfl⟩

theorem children_absent {props : Props} (h : ∀ property ∈ props, property.1 ≠ "children") :
    ∀ field ∈ fieldsOf props, field.1.text? ≠ some "children" := by
  intro field hfield hkey
  rcases field_of_mem_fieldsOf hfield with ⟨property, hproperty, rfl⟩
  exact h property hproperty (Option.some.inj hkey)

theorem lookup_eq_some_iff {props : Props} (h : props.NamesDistinct) {name : String}
    {value : Value} : props.lookup name = some value ↔ (name, value) ∈ props :=
  ⟨Entries.mem_of_lookup, Entries.lookup_of_mem h⟩

/-- As names differ, the first entry for the children is also the last one. -/
theorem children_fieldsOf {props : Props} (h : props.NamesDistinct) :
    Children (fieldsOf props) ((props.lookup "children").getD .null) := by
  cases hlookup : props.lookup "children" with
  | none =>
    apply Children.absent
    apply children_absent
    intro property hproperty hname
    have hne := List.lookup_eq_none_iff.1 hlookup property hproperty
    simp [hname] at hne
  | some value =>
    have hmem := (lookup_eq_some_iff h).1 hlookup
    rcases List.append_of_mem hmem with ⟨before, after, rfl⟩
    have hafter : ∀ property ∈ after, property.1 ≠ "children" := by
      rw [Props.NamesDistinct, List.map_append, List.map_cons] at h
      exact forall_name_ne_iff.2 (List.nodup_cons.1 h.of_append_right).1
    rw [fieldsOf, List.map_append, List.map_cons]
    exact .last rfl (children_absent hafter)

theorem WrittenArguments.arguments {bindings : Value} {arguments : Props}
    (h : WrittenArguments bindings arguments) : Arguments (some bindings) arguments := by
  cases h with
  | null => exact .null
  | mapping hdistinct =>
    have hgiven := Arguments.mapping (named_fieldsOf arguments)
    rwa [ofList_of_namesDistinct hdistinct] at hgiven

theorem isUse_alone (name : String) : IsUse [(.text "use", .text name)] name [] := by
  refine ⟨by simp [List.lookup_cons, Value.text?, Value.untagged], ?_, ?_⟩
  · have hnone : List.lookup (Value.text "with") [(Value.text "use", Value.text name)] = none := by
      simp [List.lookup_cons]
    rw [hnone]
    exact .absent
  · intro entry hentry key hkey
    rw [List.mem_singleton.1 hentry] at hkey
    exact .inl (Option.some.inj hkey).symm

/-- Which of the two entries stands first makes no difference to reading either. -/
theorem lookup_use_with {entries : Mapping} {name bindings : Value}
    (h : entries.Perm [(.text "use", name), (.text "with", bindings)]) :
    entries.lookup (.text "use") = some name ∧ entries.lookup (.text "with") = some bindings := by
  rcases List.perm_pair.1 h with rfl | rfl <;> simp [List.lookup_cons]

theorem isUse_with {name : String} {entries : Mapping} {bindings : Value} {arguments : Props}
    (hentries : entries.Perm [(.text "use", .text name), (.text "with", bindings)])
    (h : WrittenArguments bindings arguments) : IsUse entries name arguments := by
  have hlookups := lookup_use_with hentries
  refine ⟨?_, ?_, ?_⟩
  · rw [hlookups.1]
    rfl
  · rw [hlookups.2]
    exact h.arguments
  · intro entry hentry key hkey
    have hmem := hentries.mem_iff.1 hentry
    rcases List.mem_pair.1 hmem with rfl | rfl
    · exact .inl (Option.some.inj hkey).symm
    · exact .inr (Option.some.inj hkey).symm

theorem Written.denotes {templates : Templates} {value : Value} {nodes : List (Node TemplateUse)}
    (h : Written templates value nodes) : Denotes templates value nodes := by
  induction h with
  | null => exact .null
  | bool b => exact .bool b
  | nil => exact .nil
  | cons _ _ ihitem ihitems => exact .cons ihitem ihitems
  | group _ ih => exact .group rfl ih
  | bare kind => exact .bare rfl
  | @primitive kind props nodes hdistinct _ ih =>
    have hkey : Value.text? (.text kind.name) = some kind.name := rfl
    have hall := Denotes.primitive hkey (named_fieldsOf props) (children_fieldsOf hdistinct) ih
    rwa [ofList_of_namesDistinct hdistinct] at hall
  | use hdeclared => exact .use (isUse_alone _) hdeclared
  | useWith hdeclared hentries harguments => exact .use (isUse_with hentries harguments) hdeclared

/-! ## Writing trees -/

mutual

/-- A value for a tree: its children, if it may have any, stand last, in a sequence of their own. -/
def write : Node TemplateUse → Value
  | .primitive kind props children =>
    .mapping [(.text kind.name,
      .mapping (fieldsOf (props ++ [("children", .sequence (writeAll children))])))]
  | .group children => .mapping [(.text "group", .sequence (writeAll children))]
  | .custom use arguments =>
    .mapping [(.text "use", .text use.name), (.text "with", .mapping (fieldsOf arguments))]

def writeAll : List (Node TemplateUse) → List Value
  | [] => []
  | node :: nodes => write node :: writeAll nodes

end

theorem lookup_append_children {props : Props}
    (hnone : ∀ property ∈ props, property.1 ≠ "children") (children : Value) :
    (props ++ [("children", children)]).lookup "children" = some children := by
  have hlookup : props.lookup "children" = none := by
    rw [List.lookup_eq_none_iff]
    intro property hproperty
    simpa using (hnone property hproperty).symm
  rw [List.lookup_append, hlookup]
  simp

theorem erase_append_children {props : Props}
    (hnone : ∀ property ∈ props, property.1 ≠ "children") (children : Value) :
    Entries.erase "children" (props ++ [("children", children)]) = props := by
  have hkept : props.filter (!·.1 == "children") = props := by
    rw [List.filter_eq_self]
    intro property hproperty
    simpa using hnone property hproperty
  rw [Entries.erase, List.filter_append, hkept]
  simp

theorem namesDistinct_append_children {props : Props} (hdistinct : props.NamesDistinct)
    (hnone : ∀ property ∈ props, property.1 ≠ "children") (children : Value) :
    Props.NamesDistinct (props ++ [("children", children)]) := by
  rw [Props.NamesDistinct, List.map_append]
  apply List.Nodup.append hdistinct
  · simp
  · simpa using forall_name_ne_iff.1 hnone

theorem written_writeAll {templates : Templates} {nodes : List (Node TemplateUse)}
    (h : ∀ node ∈ nodes, Written templates (write node) [node]) :
    Written templates (.sequence (writeAll nodes)) nodes := by
  induction nodes with
  | nil => exact .nil
  | cons node nodes ih =>
    rcases List.forall_mem_cons.1 h with ⟨hnode, hnodes⟩
    exact .cons hnode (ih hnodes)

theorem Writable.written {templates : Templates} {node : Node TemplateUse}
    (h : Writable templates node) : Written templates (write node) [node] := by
  induction h with
  | @primitive kind props children hdistinct hnone _ ih =>
    have hall : Written templates _ [.primitive kind (Entries.erase "children" _) children] :=
      .primitive (namesDistinct_append_children hdistinct hnone (.sequence (writeAll children)))
        (by rw [lookup_append_children hnone]; exact written_writeAll ih)
    rwa [erase_append_children hnone] at hall
  | group _ ih => exact .group (written_writeAll ih)
  | custom hdeclared hdistinct => exact .useWith hdeclared (.refl _) (.mapping hdistinct)

/-- Nothing else can be written. -/
theorem Written.writable {templates : Templates} {value : Value} {nodes : List (Node TemplateUse)}
    (h : Written templates value nodes) : ∀ node ∈ nodes, Writable templates node := by
  induction h with
  | null => simp
  | bool b => simp
  | nil => simp
  | cons _ _ ihitem ihitems =>
    intro node hnode
    rcases List.mem_append.1 hnode with hitem | hitems
    · exact ihitem node hitem
    · exact ihitems node hitems
  | group _ ih => exact List.forall_mem_singleton.2 (.group ih)
  | bare kind => exact List.forall_mem_singleton.2 (.primitive .nil (by simp) (by simp))
  | @primitive kind props nodes hdistinct _ ih =>
    have hsub : (Entries.erase "children" props).map Prod.fst |>.Sublist (props.map Prod.fst) :=
      List.filter_sublist.map Prod.fst
    have hnone : ∀ property ∈ Entries.erase "children" props, property.1 ≠ "children" := by
      simp [Entries.erase]
    exact List.forall_mem_singleton.2 (.primitive (List.Nodup.sublist hsub hdistinct) hnone ih)
  | use hdeclared => exact List.forall_mem_singleton.2 (.custom hdeclared .nil)
  | useWith hdeclared _ harguments =>
    refine List.forall_mem_singleton.2 ?_
    cases harguments with
    | null => exact .custom hdeclared .nil
    | mapping hdistinct => exact .custom hdeclared hdistinct

/-! ## Completeness -/

/--
Whatever is written in the grammar is read, at every place, as the nodes it stands for; and a tree can
be written in it, and then read back, exactly if it is made of primitives without a property `children`,
groups and uses of declared macros.
-/
theorem written_complete (templates : Templates) :
    (∀ value nodes, Written templates value nodes →
      ∀ place, ∃ slot, readSlot templates place value = .ok slot ∧ slot.nodes = nodes) ∧
    ∀ node, Writable templates node ↔ ∃ value, Written templates value [node] ∧
      ∀ place, ∃ slot, readSlot templates place value = .ok slot ∧ slot.nodes = [node] := by
  have hread : ∀ value nodes, Written templates value nodes →
      ∀ place, ∃ slot, readSlot templates place value = .ok slot ∧ slot.nodes = nodes := by
    intro value nodes hwritten place
    exact (denotes_iff place).1 hwritten.denotes
  refine ⟨hread, ?_⟩
  intro node
  constructor
  · intro hnode
    exact ⟨write node, hnode.written, hread _ _ hnode.written⟩
  · rintro ⟨value, hwritten, -⟩
    exact hwritten.writable node (List.mem_singleton_self node)

/-- A macro `cargo` with one parameter. -/
def cargoTemplates : Templates :=
  [("cargo", ⟨[("command", .text "build")], .null⟩)]

/-- A workflow with an empty job and a use of the macro, in nested sequences. -/
def cargoWorkflow : Value :=
  .mapping [(.text Kind.githubWorkflow.name, .mapping (fieldsOf
    [ ("name", .text "CI"),
      ("children", .sequence
        [ .null,
          .sequence [.mapping [(.text Kind.githubJob.name, .null)], .bool true],
          .mapping [(.text "with", .mapping (fieldsOf [("command", .text "test")])),
            (.text "use", .text "cargo")] ]),
      ("on", .text "push") ]))]

def cargoTree : Node TemplateUse :=
  .primitive .githubWorkflow [("name", .text "CI"), ("on", .text "push")]
    [.primitive .githubJob [] [], .custom ⟨"cargo", cargoTemplates⟩ [("command", .text "test")]]

theorem written_cargoWorkflow : Written cargoTemplates cargoWorkflow [cargoTree] := by
  have hjobs : Written cargoTemplates
      (.sequence [.mapping [(.text Kind.githubJob.name, .null)], .bool true])
      [.primitive .githubJob [] []] := .cons (.bare .githubJob) (.cons (.bool true) .nil)
  have huse : Written cargoTemplates
      (.mapping [(.text "with", .mapping (fieldsOf [("command", .text "test")])),
        (.text "use", .text "cargo")])
      [.custom ⟨"cargo", cargoTemplates⟩ [("command", .text "test")]] :=
    .useWith rfl (.swap _ _ _) (.mapping (by decide))
  exact .primitive (by decide) (.cons .null (.cons hjobs (.cons huse .nil)))

theorem written_complete_cargoWorkflow :
    Written cargoTemplates cargoWorkflow [cargoTree] ∧
      (∃ slot, readSlot cargoTemplates (.start "root") cargoWorkflow = .ok slot ∧
        slot.nodes = [cargoTree]) ∧
      Writable cargoTemplates cargoTree := by
  refine ⟨written_cargoWorkflow, ?_, ?_⟩
  · exact (written_complete cargoTemplates).1 _ _ written_cargoWorkflow (.start "root")
  · have hread := (written_complete cargoTemplates).1 _ _ written_cargoWorkflow
    exact ((written_complete cargoTemplates).2 cargoTree).2
      ⟨cargoWorkflow, written_cargoWorkflow, hread⟩

end Authoring

end PipelineTree
