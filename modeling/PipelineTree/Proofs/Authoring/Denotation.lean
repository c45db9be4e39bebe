import PipelineTree.Authoring.Tree
import PipelineTree.Proofs.Error.Comparison

/-!
# Denotation — the values that can be read, and what they denote

`Authoring.Denotes` is the grammar of authored trees: it relates a value to the nodes it stands for.  A
value can be read exactly if it denotes nodes, and then reading gives these nodes, whatever the place.
-/

namespace PipelineTree

namespace Authoring

/-! ## The grammar -/

/-- Entries whose keys are texts, as names with values. -/
def Named (entries : Mapping) (named : Props) : Prop :=
  List.Forall₂ (fun entry property => entry.1.text? = some property.1 ∧ entry.2 = property.2)
    entries named

/-- The value that stands for the children in the fields of a primitive: the last one so named. -/
inductive Children : Mapping → Value → Prop where
  | absent {fields : Mapping} :
      (∀ field ∈ fields, field.1.text? ≠ some "children") → Children fields .null
  | last {before after : Mapping} {key value : Value} :
      key.text? = some "children" → (∀ field ∈ after, field.1.text? ≠ some "children") →
        Children (before ++ (key, value) :: after) value

/-- What is written under `with`, as arguments. -/
inductive Arguments : Option Value → Props → Prop where
  | absent : Arguments none []
  | null : Arguments (some .null) []
  | mapping {entries : Mapping} {named : Props} :
      Named entries named → Arguments (some (.mapping entries)) (Entries.ofList named)

/-- The entries of the use of a macro, with arguments. -/
structure IsUse (entries : Mapping) (name : String) (arguments : Props) : Prop where
  use : (entries.lookup (.text "use")).bind Value.text? = some name
  arguments : Arguments (entries.lookup (.text "with")) arguments
  others : ∀ entry ∈ entries, ∀ key, entry.1.text? = some key → key = "use" ∨ key = "with"

/-- The nodes that a value stands for. -/
inductive Denotes (templates : Templates) : Value → List (Node TemplateUse) → Prop where
  | null : Denotes templates .null []
  | bool (b : Bool) : Denotes templates (.bool b) []
  | nil : Denotes templates (.sequence []) []
  | cons {item : Value} {items : List Value} {nodes others : List (Node TemplateUse)} :
      Denotes templates item nodes → Denotes templates (.sequence items) others →
        Denotes templates (.sequence (item :: items)) (nodes ++ others)
  | group {key body : Value} {nodes : List (Node TemplateUse)} :
      key.text? = some "group" → Denotes templates body nodes →
        Denotes templates (.mapping [(key, body)]) [.group nodes]
  | bare {key : Value} {kind : Kind} :
      key.text? = some kind.name →
        Denotes templates (.mapping [(key, .null)]) [.primitive kind [] []]
  | primitive {key children : Value} {kind : Kind} {fields : Mapping} {named : Props}
      {nodes : List (Node TemplateUse)} :
      key.text? = some kind.name → Named fields named → Children fields children →
        Denotes templates children nodes →
        Denotes templates (.mapping [(key, .mapping fields)])
          [.primitive kind (Entries.erase "children" (Entries.ofList named)) nodes]
  | use {entries : Mapping} {name : String} {arguments : Props} :
      IsUse entries name arguments → Entries.contains name templates = true →
        Denotes templates (.mapping entries) [.custom ⟨name, templates⟩ arguments]

/-! ## Properties and uses -/

theorem propsOf_eq_ok_iff {place : Address} {entries : Mapping} {props : Props} :
    propsOf place entries = .ok props ↔
      ∃ named, Named entries named ∧ props = Entries.ofList named := by
  rw [propsOf, Run.bind_eq_ok_iff]
  refine exists_congr fun named => and_congr ?_ ?_
  · rw [Run.mapM_eq_ok_iff, Named]
    refine iff_of_eq (congrArg (fun R => List.Forall₂ R entries named) ?_)
    funext ⟨key, value⟩ ⟨name, value'⟩
    cases htext : key.text? <;> simp [fault, htext]
  · constructor
    · rintro ⟨⟩
      rfl
    · rintro rfl
      rfl

theorem strayKey?_eq_none_iff {entries : Mapping} :
    strayKey? entries = none ↔
      ∀ entry ∈ entries, ∀ key, entry.1.text? = some key → key = "use" ∨ key = "with" := by
  simp only [strayKey?, List.find?_eq_none, List.mem_filterMap, Bool.and_eq_true, bne_iff_ne,
    not_and, Decidable.not_not]
  constructor
  · intro h entry hentry key hkey
    have hkeys := h key ⟨entry, hentry, hkey⟩
    by_cases huse : key = "use"
    · exact .inl huse
    · exact .inr (hkeys huse)
  · rintro h key ⟨entry, hentry, hkey⟩ huse
    exact (h entry hentry key hkey).resolve_left huse

private theorem readArguments_eq_ok_iff {place : Address} {use : TemplateUse}
    {bindings : Option Value} {node : Node TemplateUse} :
    (match bindings with
      | none | some .null => (.ok (.custom use []) : Except LoadError (Node TemplateUse))
      | some (.mapping entries) => do
        let props ← propsOf (place.key "with") entries
        pure (.custom use props)
      | some other => fault place (.withNotMapping other.sort)) = .ok node ↔
      ∃ arguments, Arguments bindings arguments ∧ node = .custom use arguments := by
  constructor
  · intro h
    split at h
    · cases h
      exact ⟨[], .absent, rfl⟩
    · cases h
      exact ⟨[], .null, rfl⟩
    · rcases Run.bind_eq_ok_iff.1 h with ⟨arguments, harguments, hnode⟩
      rcases propsOf_eq_ok_iff.1 harguments with ⟨named, hnamed, rfl⟩
      cases hnode
      exact ⟨_, .mapping hnamed, rfl⟩
    · cases h
  · rintro ⟨arguments, harguments, rfl⟩
    cases harguments with
    | absent => rfl
    | null => rfl
    | mapping hnamed =>
      simp only [propsOf_eq_ok_iff.2 ⟨_, hnamed, rfl⟩]
      rfl

theorem readUse_eq_ok_iff {templates : Templates} {place : Address} {entries : Mapping}
    {node : Node TemplateUse} :
    readUse templates place entries = .ok node ↔
      ∃ name arguments, IsUse entries name arguments ∧ Entries.contains name templates = true ∧
        node = .custom ⟨name, templates⟩ arguments := by
  constructor
  · intro h
    unfold readUse at h
    split at h
    · cases h
    · rename_i hothers
      split at h
      · cases h
      · rename_i name huse
        split at h
        · rename_i hdeclared
          rcases readArguments_eq_ok_iff.1 h with ⟨arguments, harguments, rfl⟩
          refine ⟨name, arguments, ⟨huse, harguments, ?_⟩, hdeclared, rfl⟩
          exact strayKey?_eq_none_iff.1 hothers
        · cases h
  · rintro ⟨name, arguments, ⟨huse, harguments, hothers⟩, hdeclared, rfl⟩
    unfold readUse
    rw [strayKey?_eq_none_iff.2 hothers]
    simp only [huse, hdeclared, if_true]
    exact readArguments_eq_ok_iff.2 ⟨arguments, harguments, rfl⟩

/-! ## What is read denotes -/

theorem readChildren_eq_none_iff {templates : Templates} {place : Address} {fields : Mapping} :
    readChildren templates place fields = none ↔
      ∀ field ∈ fields, field.1.text? ≠ some "children" := by
  induction fields with
  | nil => simp [readChildren]
  | cons field fields ih =>
    rcases field with ⟨key, value⟩
    rw [readChildren, List.forall_mem_cons, ← ih]
    cases readChildren templates place fields with
    | some read => simp
    | none => by_cases hkey : key.text? = some "children" <;> simp [hkey]

mutual

theorem denotes_of_readSlot {templates : Templates} {place : Address} {value : Value}
    {slot : Slot TemplateUse} (h : readSlot templates place value = .ok slot) :
    Denotes templates value slot.nodes := by
  cases value with
  | null => cases h; exact .null
  | bool b => cases h; exact .bool b
  | number n => cases h
  | text s => cases h
  | tagged tag value => cases h
  | sequence items =>
    rw [readSlot] at h
    rcases Run.map_eq_ok_iff.1 h with ⟨slots, hslots, rfl⟩
    exact denotes_of_readItems hslots
  | mapping entries =>
    rw [readSlot] at h
    split at h
    · rcases Run.map_eq_ok_iff.1 h with ⟨node, hnode, rfl⟩
      rcases readUse_eq_ok_iff.1 hnode with ⟨name, arguments, huse, hdeclared, rfl⟩
      exact .use huse hdeclared
    · rcases Run.map_eq_ok_iff.1 h with ⟨node, hnode, rfl⟩
      exact denotes_of_readNode hnode

theorem denotes_of_readItems {templates : Templates} {place : Address} {position : Nat}
    {items : List Value} {slots : List (Slot TemplateUse)}
    (h : readItems templates place position items = .ok slots) :
    Denotes templates (.sequence items) (Slot.nodesAll slots) := by
  cases items with
  | nil => cases h; exact .nil
  | cons item items =>
    rw [readItems] at h
    rcases Run.bind_eq_ok_iff.1 h with ⟨slot, hslot, hrest⟩
    rcases Run.bind_eq_ok_iff.1 hrest with ⟨others, hothers, hslots⟩
    cases hslots
    exact .cons (denotes_of_readSlot hslot) (denotes_of_readItems hothers)

theorem denotes_of_readNode {templates : Templates} {place : Address} {entries : Mapping}
    {node : Node TemplateUse} (h : readNode templates place entries = .ok node) :
    Denotes templates (.mapping entries) [node] := by
  match entries with
  | [] => cases h
  | (_ :: _ :: _) => cases h
  | [(key, body)] =>
    rw [readNode] at h
    cases htext : key.text? with
    | none => simp [htext, fault] at h
    | some name =>
      simp only [htext, beq_iff_eq] at h
      split at h
      · rename_i hgroup
        rcases Run.bind_eq_ok_iff.1 h with ⟨slot, hslot, hnode⟩
        cases hnode
        exact .group (hgroup ▸ htext) (denotes_of_readSlot hslot)
      · split at h
        · cases h
        · rename_i kind hkind
          rw [Kind.ofName?_eq_some_iff.1 hkind] at htext
          exact denotes_of_readPrimitive htext h

theorem denotes_of_readPrimitive {templates : Templates} {place : Address} {key body : Value}
    {kind : Kind} {node : Node TemplateUse} (hkey : key.text? = some kind.name)
    (h : readPrimitive templates place kind body = .ok node) :
    Denotes templates (.mapping [(key, body)]) [node] := by
  cases body with
  | null => cases h; exact .bare hkey
  | bool b => cases h
  | number n => cases h
  | text s => cases h
  | sequence items => cases h
  | tagged tag value => cases h
  | mapping fields =>
    rw [readPrimitive] at h
    rcases Run.bind_eq_ok_iff.1 h with ⟨props, hprops, hrest⟩
    rcases Run.bind_eq_ok_iff.1 hrest with ⟨slot, hslot, hnode⟩
    cases hnode
    rcases propsOf_eq_ok_iff.1 hprops with ⟨named, hnamed, rfl⟩
    cases hread : readChildren templates (place.key "children") fields with
    | none =>
      rw [hread] at hslot
      cases hslot
      exact .primitive hkey hnamed (.absent (readChildren_eq_none_iff.1 hread)) .null
    | some read =>
      rw [hread] at hslot
      cases hslot
      rcases denotes_of_readChildren hread with ⟨children, hchildren, hnodes⟩
      exact .primitive hkey hnamed hchildren hnodes

theorem denotes_of_readChildren {templates : Templates} {place : Address} {fields : Mapping}
    {slot : Slot TemplateUse} (h : readChildren templates place fields = some (.ok slot)) :
    ∃ children, Children fields children ∧ Denotes templates children slot.nodes := by
  match fields with
  | [] => cases h
  | (key, value) :: fields =>
    rw [readChildren] at h
    cases hrest : readChildren templates place fields with
    | some read =>
      rw [hrest] at h
      cases h
      rcases denotes_of_readChildren hrest with ⟨children, hchildren, hnodes⟩
      refine ⟨children, ?_, hnodes⟩
      cases hchildren with
      | absent habsent => simp [readChildren_eq_none_iff.2 habsent] at hrest
      | @last before after lastKey _ hkey hafter =>
        -- An entry in front of the last one changes nothing, whatever its key.
        have hlast : Children (((key, value) :: before) ++ (lastKey, children) :: after) children :=
          .last hkey hafter
        exact hlast
    | none =>
      rw [hrest] at h
      simp only [beq_iff_eq, Option.ite_none_right_eq_some, Option.some.injEq] at h
      have hlast : Children ([] ++ (key, value) :: fields) value :=
        .last h.1 (readChildren_eq_none_iff.1 hrest)
      exact ⟨value, hlast, denotes_of_readSlot h.2⟩

end

/-! ## What denotes is read -/

theorem readChildren_last {templates : Templates} {place : Address} {key value : Value}
    {after : Mapping} (hkey : key.text? = some "children")
    (hafter : ∀ field ∈ after, field.1.text? ≠ some "children") (before : Mapping) :
    readChildren templates place (before ++ (key, value) :: after) =
      some (readSlot templates place value) := by
  induction before with
  | nil =>
    rw [List.nil_append, readChildren, readChildren_eq_none_iff.2 hafter]
    simp [hkey]
  | cons field before ih =>
    rcases field with ⟨_, _⟩
    rw [List.cons_append, readChildren, ih]

theorem Children.read {templates : Templates} {fields : Mapping} {children : Value}
    (h : Children fields children) (place : Address) :
    (readChildren templates place fields).getD (.ok .empty) = readSlot templates place children := by
  cases h with
  | absent habsent =>
    rw [readChildren_eq_none_iff.2 habsent]
    rfl
  | @last before after key value hkey hafter =>
    rw [readChildren_last hkey hafter before]
    rfl

theorem contains_use_eq_false {key body : Value} {name : String} (hkey : key.text? = some name)
    (hname : name ≠ "use") : Entries.contains (.text "use") [(key, body)] = false := by
  have hne : ¬(key == .text "use") = true := by
    rw [Value.beq_text_iff]
    rintro rfl
    exact hname (Option.some.inj hkey).symm
  simpa [Entries.contains] using hne

theorem IsUse.contains_use {entries : Mapping} {name : String} {arguments : Props}
    (h : IsUse entries name arguments) : Entries.contains (.text "use") entries = true := by
  have hlookup : (entries.lookup (.text "use")).isSome = true := by
    rcases Option.bind_eq_some_iff.1 h.use with ⟨value, hvalue, -⟩
    rw [hvalue]
    rfl
  rcases List.lookup_isSome_iff.1 hlookup with ⟨entry, hentry, hkey⟩
  rw [Entries.contains, List.any_eq_true]
  exact ⟨entry, hentry, Value.beq_text_iff.2 (Value.text_beq_iff.1 hkey)⟩

theorem IsUse.text?_key {key body : Value} {name : String} {arguments : Props}
    (h : IsUse [(key, body)] name arguments) : key.text? = some "use" := by
  have hkey : (key == .text "use") = true := by
    simpa [Entries.contains] using h.contains_use
  rw [Value.beq_text_iff.1 hkey]
  rfl

theorem readSlot_node {templates : Templates} {place : Address} {key body : Value} {name : String}
    (hkey : key.text? = some name) (hname : name ≠ "use") :
    readSlot templates place (.mapping [(key, body)]) =
      .one <$> readNode templates place [(key, body)] := by
  rw [readSlot, contains_use_eq_false hkey hname]
  rfl

theorem readSlot_group {templates : Templates} {key : Value} (hkey : key.text? = some "group")
    (place : Address) (body : Value) :
    readSlot templates place (.mapping [(key, body)]) =
      (fun slot => .one (.group slot.nodes)) <$>
        readSlot templates (place.key "group") body := by
  rw [readSlot_node hkey (by decide), readNode, hkey]
  simp only [beq_self_eq_true, if_true]
  cases readSlot templates (place.key "group") body <;> rfl

theorem readSlot_primitive {templates : Templates} {key : Value} {kind : Kind}
    (hkey : key.text? = some kind.name) (place : Address) (body : Value) :
    readSlot templates place (.mapping [(key, body)]) =
      .one <$> readPrimitive templates (place.key kind.name) kind body := by
  have hgroup : (kind.name == "group") = false := by
    simpa using kind.name_ne_group
  rw [readSlot_node hkey kind.name_ne_use, readNode, hkey]
  simp only [hgroup, Bool.false_eq_true, if_false, kind.ofName?_name]

/-- A value is read as nodes at every place, and a sequence also from every position on. -/
structure ReadsAs (templates : Templates) (value : Value) (nodes : List (Node TemplateUse)) :
    Prop where
  slot : ∀ place, ∃ slot, readSlot templates place value = .ok slot ∧ slot.nodes = nodes
  items : ∀ items, value = .sequence items → ∀ place position, ∃ slots,
    readItems templates place position items = .ok slots ∧ Slot.nodesAll slots = nodes

namespace ReadsAs

variable {templates : Templates}

theorem sequence {items : List Value} {nodes : List (Node TemplateUse)}
    (h : ∀ place position, ∃ slots, readItems templates place position items = .ok slots ∧
      Slot.nodesAll slots = nodes) : ReadsAs templates (.sequence items) nodes := by
  constructor
  · intro place
    rcases h place 0 with ⟨slots, hslots, rfl⟩
    refine ⟨.many slots, ?_, rfl⟩
    rw [readSlot, hslots]
    rfl
  · rintro _ ⟨⟩
    exact h

theorem mapping {entries : Mapping} {node : Node TemplateUse}
    (h : ∀ place, readSlot templates place (.mapping entries) = .ok (.one node)) :
    ReadsAs templates (.mapping entries) [node] := by
  refine ⟨?_, by simp⟩
  intro place
  exact ⟨.one node, h place, rfl⟩

end ReadsAs

theorem Denotes.readsAs {templates : Templates} {value : Value} {nodes : List (Node TemplateUse)}
    (h : Denotes templates value nodes) : ReadsAs templates value nodes := by
  induction h with
  | null =>
    refine ⟨?_, by simp⟩
    intro place
    exact ⟨.empty, rfl, rfl⟩
  | bool b =>
    refine ⟨?_, by simp⟩
    intro place
    exact ⟨.empty, rfl, rfl⟩
  | nil =>
    refine ReadsAs.sequence ?_
    intro place position
    exact ⟨[], rfl, rfl⟩
  | cons _ _ ihitem ihitems =>
    -- The items behind the first one are not read from position 0 here.
    refine ReadsAs.sequence ?_
    intro place position
    rcases ihitem.slot (place.item position) with ⟨slot, hslot, rfl⟩
    rcases ihitems.items _ rfl place (position + 1) with ⟨slots, hslots, rfl⟩
    refine ⟨slot :: slots, ?_, rfl⟩
    rw [readItems, hslot, hslots]
    rfl
  | group hkey _ ih =>
    refine ReadsAs.mapping ?_
    intro place
    rcases ih.slot (place.key "group") with ⟨slot, hslot, rfl⟩
    rw [readSlot_group hkey, hslot]
    rfl
  | bare hkey =>
    refine ReadsAs.mapping ?_
    intro place
    rw [readSlot_primitive hkey]
    rfl
  | @primitive key children kind fields named nodes hkey hnamed hchildren _ ih =>
    refine ReadsAs.mapping ?_
    intro place
    rcases ih.slot ((place.key kind.name).key "children") with ⟨slot, hslot, rfl⟩
    have hprops : propsOf (place.key kind.name) fields = .ok (Entries.ofList named) :=
      propsOf_eq_ok_iff.2 ⟨named, hnamed, rfl⟩
    rw [readSlot_primitive hkey, readPrimitive, hprops, Run.ok_bind, hchildren.read, hslot]
    rfl
  | use huse hdeclared =>
    refine ReadsAs.mapping ?_
    intro place
    rw [readSlot, huse.contains_use, if_pos rfl,
      readUse_eq_ok_iff.2 ⟨_, _, huse, hdeclared, rfl⟩]
    rfl

/-- Reading succeeds exactly on the values that denote nodes, at any place, and gives these nodes. -/
theorem denotes_iff {templates : Templates} {value : Value} {nodes : List (Node TemplateUse)}
    (place : Address) :
    Denotes templates value nodes ↔
      ∃ slot, readSlot templates place value = .ok slot ∧ slot.nodes = nodes := by
  constructor
  · intro h
    exact h.readsAs.slot place
  · rintro ⟨slot, hslot, rfl⟩
    exact denotes_of_readSlot hslot

theorem Denotes.unique {templates : Templates} {value : Value}
    {nodes nodes' : List (Node TemplateUse)} (h : Denotes templates value nodes)
    (h' : Denotes templates value nodes') : nodes = nodes' := by
  rcases h.readsAs.slot (.start "root") with ⟨slot, hslot, rfl⟩
  rcases h'.readsAs.slot (.start "root") with ⟨slot', hslot', rfl⟩
  cases hslot.symm.trans hslot'
  rfl

/-! ## Parts of what is read -/

section Parts

variable {templates : Templates} {nodes : List (Node TemplateUse)}

theorem Denotes.of_item {items : List Value} {item : Value}
    (h : Denotes templates (.sequence items) nodes) (hmem : item ∈ items) :
    ∃ part, Denotes templates item part ∧ part ⊆ nodes := by
  induction items generalizing nodes with
  | nil => cases hmem
  | cons first items ih =>
    cases h with
    | @cons _ _ front back hfirst hothers =>
      rcases List.mem_cons.1 hmem with rfl | hlater
      · exact ⟨front, hfirst, List.subset_append_left front back⟩
      · rcases ih hothers hlater with ⟨part, hpart, hsubset⟩
        exact ⟨part, hpart, fun node hnode => List.mem_append_right front (hsubset hnode)⟩

/-- A mapping with a key `group` denotes the group of what stands there, if it denotes nodes. -/
theorem Denotes.of_group {entries : Mapping} {key body : Value}
    (h : Denotes templates (.mapping entries) nodes) (hmem : (key, body) ∈ entries)
    (hkey : key.text? = some "group") :
    ∃ inner, Denotes templates body inner ∧ nodes = [.group inner] := by
  cases h with
  | group _ hbody =>
    cases List.mem_singleton.1 hmem
    exact ⟨_, hbody, rfl⟩
  | @bare _ kind hkind | @primitive _ _ kind _ _ _ hkind =>
    -- No kind is named like this.
    cases List.mem_singleton.1 hmem
    exact absurd (Option.some.inj (hkind.symm.trans hkey)) kind.name_ne_group
  | use huse =>
    -- Nor does such a key stand beside a use.
    rcases huse.others _ hmem _ hkey with hname | hname <;> simp at hname

end Parts

end Authoring

end PipelineTree
