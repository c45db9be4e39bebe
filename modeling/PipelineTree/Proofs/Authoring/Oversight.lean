import PipelineTree.Proofs.Authoring.Grammar

/-!
# Oversight — what the reader lets pass

The reader takes more than the grammar of `Authoring.Written`: it asks of keys and names only for the
text beneath their tags, and beside `use` it passes over keys that have none.  `Authoring.Overlooks` lists
these places.  What is read was written in the grammar exactly if nothing was overlooked, and what is not
read was not written in it (`Authoring.readSlot_sound`).
-/

namespace PipelineTree

namespace Authoring

/-- Somewhere in the value an entry or a tag is passed over. -/
inductive Overlooks : Value → Prop where
  | item {items : List Value} {item : Value} :
      item ∈ items → Overlooks item → Overlooks (.sequence items)
  | nodeTag {tag : String} {key body : Value} : Overlooks (.mapping [(.tagged tag key, body)])
  | group {body : Value} : Overlooks body → Overlooks (.mapping [(.text "group", body)])
  | fieldTag {kind : Kind} {fields : Mapping} {tag : String} {key value : Value} :
      (.tagged tag key, value) ∈ fields →
        Overlooks (.mapping [(.text kind.name, .mapping fields)])
  | children {kind : Kind} {fields : Mapping} {value : Value} :
      (.text "children", value) ∈ fields → Overlooks value →
        Overlooks (.mapping [(.text kind.name, .mapping fields)])
  | besideUse {entries : Mapping} {key value : Value} :
      Entries.contains (.text "use") entries = true → (key, value) ∈ entries →
        (∀ s, key ≠ .text s) → Overlooks (.mapping entries)
  | macroTag {entries : Mapping} {tag : String} {name : Value} :
      (.text "use", .tagged tag name) ∈ entries → Overlooks (.mapping entries)
  | argumentTag {entries bindings : Mapping} {tag : String} {key value : Value} :
      Entries.contains (.text "use") entries = true → (.text "with", .mapping bindings) ∈ entries →
        (.tagged tag key, value) ∈ bindings → Overlooks (.mapping entries)

theorem text_or_tagged {key : Value} {name : String} (h : key.text? = some name) :
    key = .text name ∨ ∃ tag inner, key = .tagged tag inner := by
  cases key with
  | text s => exact .inl (congrArg Value.text (Option.some.inj h))
  | tagged tag inner => exact .inr ⟨tag, inner, rfl⟩
  | _ => cases h

/-! ## What overlooks nothing -/

theorem fields_of_untagged {fields : Mapping} {named : Props} (h : Named fields named)
    (huntagged : ∀ field ∈ fields, ∀ tag inner, field.1 ≠ .tagged tag inner) :
    fields = fieldsOf named := by
  induction h with
  | nil => rfl
  | @cons field property fields named hfield _ ih =>
    rcases List.forall_mem_cons.1 huntagged with ⟨hfirst, hrest⟩
    rcases hfield with ⟨hkey, hvalue⟩
    have hfieldEq : field = (.text property.1, property.2) := by
      rcases text_or_tagged hkey with htext | ⟨tag, inner, htagged⟩
      · exact Prod.ext htext hvalue
      · exact absurd htagged (hfirst tag inner)
    rw [hfieldEq, ih hrest]
    rfl

theorem namesDistinct_of_distinct {props : Props} (h : Entries.Distinct (fieldsOf props)) :
    props.NamesDistinct := by
  have hkeys := List.pairwise_map.1 h
  exact List.pairwise_map.2 (hkeys.imp fun hne => by simpa using hne)

/-- As names differ, there is only one value for the children. -/
theorem Children.eq_lookup {props : Props} {children : Value} (h : Children (fieldsOf props) children)
    (hdistinct : props.NamesDistinct) : (props.lookup "children").getD .null = children := by
  -- The constructors of `Children` split the fields, which `cases` cannot do to a `map`.
  generalize hfields : fieldsOf props = fields at h
  cases h with
  | absent habsent =>
    cases hlookup : props.lookup "children" with
    | none => rfl
    | some value =>
      have hmem := mem_fieldsOf.2 ((lookup_eq_some_iff hdistinct).1 hlookup)
      rw [hfields] at hmem
      exact absurd rfl (habsent _ hmem)
  | @last before after key _ hkey _ =>
    have hmem : (key, children) ∈ fieldsOf props := by simp [hfields]
    rcases field_of_mem_fieldsOf hmem with ⟨⟨name, value⟩, hproperty, heq⟩
    cases heq
    cases Option.some.inj hkey
    rw [(lookup_eq_some_iff hdistinct).2 hproperty]
    rfl

theorem Children.null_or_mem {fields : Mapping} {children : Value} (h : Children fields children) :
    children = .null ∨ ∃ key, key.text? = some "children" ∧ (key, children) ∈ fields := by
  cases h with
  | absent _ => exact .inl rfl
  | last hkey _ => exact .inr ⟨_, hkey, by simp⟩

/-- A use without equal keys, in which all keys are texts, has one of two shapes. -/
theorem use_entries {entries : Mapping} (hdistinct : Entries.Distinct entries)
    (hkeys : ∀ entry ∈ entries, entry.1 = .text "use" ∨ entry.1 = .text "with")
    (huse : Entries.contains (.text "use") entries = true) :
    ∃ name, entries = [(.text "use", name)] ∨
      ∃ bindings, entries.Perm [(.text "use", name), (.text "with", bindings)] := by
  -- Of three entries two would have the same key.
  match entries with
  | [] => simp [Entries.contains] at huse
  | [(key, value)] =>
    have hkey : key = .text "use" := by simpa [Entries.contains, Value.beq_text_iff] using huse
    exact ⟨value, .inl (by rw [hkey])⟩
  | [(first, value), (second, other)] =>
    simp only [List.forall_mem_cons] at hkeys
    rcases hkeys with ⟨hfirst, hsecond, -⟩
    have hne : (first == second) = false := by simpa [Entries.Distinct] using hdistinct
    rcases hfirst with rfl | rfl <;> rcases hsecond with rfl | rfl
    · simp at hne
    · exact ⟨value, .inr ⟨other, .refl _⟩⟩
    · exact ⟨other, .inr ⟨value, .swap _ _ _⟩⟩
    · simp at hne
  | (first, _) :: (second, _) :: (third, _) :: rest =>
    simp only [List.forall_mem_cons] at hkeys
    rcases hkeys with ⟨hfirst, hsecond, hthird, -⟩
    simp only [Entries.Distinct, List.pairwise_cons, List.forall_mem_cons] at hdistinct
    rcases hdistinct with ⟨⟨hfirstSecond, hfirstThird, -⟩, ⟨hsecondThird, -⟩, -⟩
    rcases hfirst with rfl | rfl <;> rcases hsecond with rfl | rfl <;>
      rcases hthird with rfl | rfl <;> simp_all

theorem Arguments.written {bindings : Value} {arguments : Props}
    (h : Arguments (some bindings) arguments) (hproper : bindings.Proper)
    (huntagged : ∀ entries, bindings = .mapping entries →
      ∀ entry ∈ entries, ∀ tag inner, entry.1 ≠ .tagged tag inner) :
    WrittenArguments bindings arguments := by
  cases h with
  | null => exact .null
  | @mapping entries named hnamed =>
    have hfields := fields_of_untagged hnamed (huntagged entries rfl)
    cases hproper with
    | mapping hdistinct _ _ =>
      rw [hfields] at hdistinct ⊢
      have hnames := namesDistinct_of_distinct hdistinct
      rw [ofList_of_namesDistinct hnames]
      exact .mapping hnames

theorem IsUse.text_keys {entries : Mapping} {name : String} {arguments : Props}
    (h : IsUse entries name arguments) (hnone : ¬Overlooks (.mapping entries)) :
    ∀ entry ∈ entries, entry.1 = .text "use" ∨ entry.1 = .text "with" := by
  intro entry hentry
  by_cases htext : ∃ s, entry.1 = .text s
  · rcases htext with ⟨s, hs⟩
    rcases h.others entry hentry s (by rw [hs]; rfl) with rfl | rfl
    · exact .inl hs
    · exact .inr hs
  · exact absurd (.besideUse h.contains_use hentry (not_exists.1 htext)) hnone

theorem IsUse.text_name {entries : Mapping} {name : String} {arguments : Props}
    (h : IsUse entries name arguments) (hnone : ¬Overlooks (.mapping entries)) {value : Value}
    (hlookup : entries.lookup (.text "use") = some value) : value = .text name := by
  have htext := h.use
  rw [hlookup, Option.bind_some] at htext
  rcases text_or_tagged htext with rfl | ⟨tag, inner, rfl⟩
  · rfl
  · exact absurd (.macroTag (Entries.mem_of_lookup_text hlookup)) hnone

theorem IsUse.written {templates : Templates} {entries : Mapping} {name : String}
    {arguments : Props} (h : IsUse entries name arguments)
    (hdeclared : Entries.contains name templates = true) (hproper : (Value.mapping entries).Proper)
    (hnone : ¬Overlooks (.mapping entries)) :
    Written templates (.mapping entries) [.custom ⟨name, templates⟩ arguments] := by
  cases hproper with
  | mapping hdistinct _ hvalues =>
    have harguments := h.arguments
    rcases use_entries hdistinct (h.text_keys hnone) h.contains_use with
      ⟨value, rfl | ⟨bindings, hentries⟩⟩
    · have hlookup : List.lookup (Value.text "use") [(Value.text "use", value)] = some value := by
        simp [List.lookup_cons]
      cases h.text_name hnone hlookup
      have hwith : List.lookup (Value.text "with") [(Value.text "use", Value.text name)] = none := by
        simp [List.lookup_cons]
      rw [hwith] at harguments
      cases harguments
      exact .use hdeclared
    · rcases lookup_use_with hentries with ⟨huse, hwith⟩
      cases h.text_name hnone huse
      rw [hwith] at harguments
      have hmem : (Value.text "with", bindings) ∈ entries := Entries.mem_of_lookup_text hwith
      have hwritten : WrittenArguments bindings arguments := by
        apply harguments.written (hvalues _ hmem)
        rintro inner rfl ⟨_, value⟩ hentry tag key rfl
        exact hnone (.argumentTag h.contains_use hmem hentry)
      exact .useWith hdeclared hentries hwritten

/-- What the children denote is only asked for once they are known to be proper. -/
theorem written_primitive {templates : Templates} {kind : Kind} {fields : Mapping} {named : Props}
    {children : Value} {nodes : List (Node TemplateUse)} (hnamed : Named fields named)
    (hchildren : Children fields children) (hproper : (Value.mapping fields).Proper)
    (hnone : ¬Overlooks (.mapping [(.text kind.name, .mapping fields)]))
    (hwritten : children.Proper → ¬Overlooks children → Written templates children nodes) :
    Written templates (.mapping [(.text kind.name, .mapping fields)])
      [.primitive kind (Entries.erase "children" (Entries.ofList named)) nodes] := by
  have huntagged : ∀ field ∈ fields, ∀ tag inner, field.1 ≠ .tagged tag inner := by
    rintro ⟨_, value⟩ hfield tag inner rfl
    exact hnone (.fieldTag hfield)
  cases fields_of_untagged hnamed huntagged
  cases hproper with
  | mapping hdistinct _ hvalues =>
    have hnames := namesDistinct_of_distinct hdistinct
    have hnodes : Written templates children nodes := by
      rcases hchildren.null_or_mem with rfl | ⟨key, hkey, hmem⟩
      · exact hwritten .null (by rintro ⟨⟩)
      · rcases text_or_tagged hkey with rfl | ⟨tag, inner, rfl⟩
        · exact hwritten (hvalues _ hmem) fun hpassed => hnone (.children hmem hpassed)
        · exact absurd rfl (huntagged _ hmem tag inner)
    rw [ofList_of_namesDistinct hnames]
    exact .primitive hnames (by rwa [hchildren.eq_lookup hnames])

/-- What a value denotes is written there, unless something is overlooked. -/
theorem Denotes.written {templates : Templates} {value : Value} {nodes : List (Node TemplateUse)}
    (h : Denotes templates value nodes) (hproper : value.Proper) (hnone : ¬Overlooks value) :
    Written templates value nodes := by
  -- Every form is written as it stands unless a tag is in the way, and then the tag is overlooked.
  induction h with
  | null => exact .null
  | bool b => exact .bool b
  | nil => exact .nil
  | @cons item items nodes others _ _ ihitem ihitems =>
    cases hproper with
    | sequence hitems =>
      rcases List.forall_mem_cons.1 hitems with ⟨hitem, hrest⟩
      have hfirst : ¬Overlooks item := fun hpassed => hnone (.item List.mem_cons_self hpassed)
      have hothers : ¬Overlooks (.sequence items) := by
        rintro ⟨hmem, hpassed⟩
        exact hnone (.item (List.mem_cons_of_mem _ hmem) hpassed)
      exact .cons (ihitem hitem hfirst) (ihitems (.sequence hrest) hothers)
  | @group key body nodes hkey _ ih =>
    rcases text_or_tagged hkey with rfl | ⟨tag, inner, rfl⟩
    · cases hproper with
      | mapping _ _ hvalues =>
        have hbody : body.Proper := hvalues _ (List.mem_singleton_self _)
        exact .group (ih hbody fun hpassed => hnone (.group hpassed))
    · exact absurd .nodeTag hnone
  | @bare key kind hkey =>
    rcases text_or_tagged hkey with rfl | ⟨tag, inner, rfl⟩
    · exact .bare kind
    · exact absurd .nodeTag hnone
  | @primitive key children kind fields named nodes hkey hnamed hchildren _ ih =>
    rcases text_or_tagged hkey with rfl | ⟨tag, inner, rfl⟩
    · cases hproper with
      | mapping _ _ hvalues =>
        have hfields : (Value.mapping fields).Proper := hvalues _ (List.mem_singleton_self _)
        exact written_primitive hnamed hchildren hfields hnone ih
    · exact absurd .nodeTag hnone
  | use huse hdeclared => exact huse.written hdeclared hproper hnone

/-! ## In the grammar nothing is overlooked -/

theorem overlooks_node {name : String} {body : Value} (hname : name ≠ "use")
    (h : Overlooks (.mapping [(.text name, body)])) :
    (name = "group" ∧ Overlooks body) ∨
      ∃ kind fields, name = Kind.name kind ∧ body = .mapping fields ∧
        ((∃ tag key value, (.tagged tag key, value) ∈ fields) ∨
          ∃ value, (.text "children", value) ∈ fields ∧ Overlooks value) := by
  have hnouse : ¬Entries.contains (.text "use") [(Value.text name, body)] = true := by
    simpa [Entries.contains] using hname
  cases h with
  | group hbody => exact .inl ⟨rfl, hbody⟩
  | @fieldTag kind fields tag key value hmem =>
    exact .inr ⟨kind, fields, rfl, rfl, .inl ⟨tag, key, value, hmem⟩⟩
  | @children kind fields value hmem hpassed =>
    exact .inr ⟨kind, fields, rfl, rfl, .inr ⟨value, hmem, hpassed⟩⟩
  | besideUse huse _ _ => exact absurd huse hnouse
  | macroTag hmem =>
    cases List.mem_singleton.1 hmem
    exact absurd rfl hname
  | argumentTag huse _ _ => exact absurd huse hnouse

theorem not_tagged_mem_fieldsOf {props : Props} {tag : String} {key value : Value} :
    (.tagged tag key, value) ∉ fieldsOf props := by
  intro hmem
  rcases field_of_mem_fieldsOf hmem with ⟨property, -, heq⟩
  cases heq

theorem not_overlooks_use {entries : Mapping} (name : String)
    (huse : Entries.contains (.text "use") entries = true)
    (hentries : ∀ entry ∈ entries, entry = (.text "use", .text name) ∨
      ∃ bindings arguments, entry = (.text "with", bindings) ∧
        WrittenArguments bindings arguments) : ¬Overlooks (.mapping entries) := by
  intro hpassed
  -- The first four are about mappings with one key that is not `use`.
  cases hpassed with
  | nodeTag => simp [Entries.contains, Value.beq_text_iff] at huse
  | group _ => simp [Entries.contains] at huse
  | @fieldTag kind _ _ _ _ _ => exact kind.name_ne_use (by simpa [Entries.contains] using huse)
  | @children kind _ _ _ _ => exact kind.name_ne_use (by simpa [Entries.contains] using huse)
  | besideUse _ hmem hkey =>
    rcases hentries _ hmem with heq | ⟨_, _, heq, -⟩
    · exact hkey _ (congrArg Prod.fst heq)
    · exact hkey _ (congrArg Prod.fst heq)
  | macroTag hmem =>
    rcases hentries _ hmem with heq | ⟨_, _, heq, -⟩
    · simp at heq
    · simp at heq
  | argumentTag _ hmem htagged =>
    rcases hentries _ hmem with heq | ⟨_, _, heq, hwritten⟩
    · simp at heq
    · cases heq
      cases hwritten with
      | mapping _ => exact not_tagged_mem_fieldsOf htagged

theorem Written.not_overlooks {templates : Templates} {value : Value}
    {nodes : List (Node TemplateUse)} (h : Written templates value nodes) : ¬Overlooks value := by
  induction h with
  | null => rintro ⟨⟩
  | bool b => rintro ⟨⟩
  | nil =>
    rintro ⟨hmem, -⟩
    cases hmem
  | cons _ _ ihitem ihitems =>
    rintro ⟨hmem, hpassed⟩
    rcases List.mem_cons.1 hmem with rfl | hrest
    · exact ihitem hpassed
    · exact ihitems (.item hrest hpassed)
  | group _ ih =>
    intro hpassed
    rcases overlooks_node (by decide) hpassed with ⟨-, hbody⟩ | ⟨kind, _, hname, -⟩
    · exact ih hbody
    · exact kind.name_ne_group hname.symm
  | bare kind =>
    intro hpassed
    rcases overlooks_node kind.name_ne_use hpassed with ⟨hname, -⟩ | ⟨_, _, -, hbody, -⟩
    · exact kind.name_ne_group hname
    · cases hbody
  | @primitive kind props nodes hdistinct _ ih =>
    intro hpassed
    rcases overlooks_node kind.name_ne_use hpassed with
      ⟨hname, -⟩ | ⟨_, _, -, hbody, ⟨tag, key, value, hmem⟩ | ⟨value, hmem, hchildren⟩⟩
    · exact kind.name_ne_group hname
    · cases hbody
      exact not_tagged_mem_fieldsOf hmem
    · cases hbody
      rw [(lookup_eq_some_iff hdistinct).2 (mem_fieldsOf.1 hmem)] at ih
      exact ih hchildren
  | @use name _ =>
    apply not_overlooks_use name (by simp [Entries.contains])
    intro entry hentry
    exact .inl (List.mem_singleton.1 hentry)
  | @useWith name _ _ _ _ hentries harguments =>
    refine not_overlooks_use name (isUse_with hentries harguments).contains_use ?_
    intro entry hentry
    rcases List.mem_pair.1 (hentries.mem_iff.1 hentry) with huse | hwith
    · exact .inl huse
    · exact .inr ⟨_, _, hwith, harguments⟩

/-! ## What is not read -/

/-- The errors with which a slot is refused: a fault at some place, or a macro that is not declared. -/
inductive Refusal (templates : Templates) : LoadError → Prop where
  | misplaced (place : Address) (fault : Fault) :
      Refusal templates (.invalid (.misplaced place fault))
  | unknownMacro {name : String} :
      Entries.contains name templates = false → Refusal templates (.unknownMacro name)

theorem refusal_of_fault {α : Type} {templates : Templates} {place : Address} {f : Fault}
    {error : LoadError} (h : (fault place f : Except LoadError α) = .error error) :
    Refusal templates error := by
  cases h
  exact .misplaced place f

theorem refusal_of_propsOf {templates : Templates} {place : Address} {entries : Mapping}
    {error : LoadError} (h : propsOf place entries = .error error) : Refusal templates error := by
  rcases Run.bind_eq_error_iff.1 h with hmap | ⟨_, _, hnone⟩
  · rcases Run.exists_of_mapM_eq_error hmap with ⟨⟨key, value⟩, -, hentry⟩
    cases hkey : key.text? with
    | none => exact refusal_of_fault (by simpa [hkey] using hentry)
    | some name => simp [hkey] at hentry
  · cases hnone

theorem refusal_of_readUse {templates : Templates} {place : Address} {entries : Mapping}
    {error : LoadError} (h : readUse templates place entries = .error error) :
    Refusal templates error := by
  unfold readUse at h
  split at h
  · exact refusal_of_fault h
  · split at h
    · exact refusal_of_fault h
    · split at h
      · split at h
        · cases h
        · cases h
        · rcases Run.bind_eq_error_iff.1 h with hprops | ⟨_, _, hnone⟩
          · exact refusal_of_propsOf hprops
          · cases hnone
        · exact refusal_of_fault h
      · rename_i hdeclared
        cases h
        exact .unknownMacro (by simpa using hdeclared)

mutual

theorem refusal_of_readSlot {templates : Templates} {place : Address} {value : Value}
    {error : LoadError} (h : readSlot templates place value = .error error) :
    Refusal templates error := by
  cases value with
  | null => cases h
  | bool b => cases h
  | number n => exact refusal_of_fault h
  | text s => exact refusal_of_fault h
  | tagged tag value => exact refusal_of_fault h
  | sequence items =>
    rw [readSlot] at h
    exact refusal_of_readItems (Run.map_eq_error_iff.1 h)
  | mapping entries =>
    rw [readSlot] at h
    split at h
    · exact refusal_of_readUse (Run.map_eq_error_iff.1 h)
    · exact refusal_of_readNode (Run.map_eq_error_iff.1 h)

theorem refusal_of_readItems {templates : Templates} {place : Address} {position : Nat}
    {items : List Value} {error : LoadError}
    (h : readItems templates place position items = .error error) : Refusal templates error := by
  cases items with
  | nil => cases h
  | cons item items =>
    rw [readItems] at h
    rcases Run.bind_eq_error_iff.1 h with hitem | ⟨_, _, hrest⟩
    · exact refusal_of_readSlot hitem
    · rcases Run.bind_eq_error_iff.1 hrest with hitems | ⟨_, _, hnone⟩
      · exact refusal_of_readItems hitems
      · cases hnone

theorem refusal_of_readNode {templates : Templates} {place : Address} {entries : Mapping}
    {error : LoadError} (h : readNode templates place entries = .error error) :
    Refusal templates error := by
  match entries with
  | [] => exact refusal_of_fault h
  | (_ :: _ :: _) => exact refusal_of_fault h
  | [(key, body)] =>
    rw [readNode] at h
    split at h
    · exact refusal_of_fault h
    · split at h
      · rcases Run.bind_eq_error_iff.1 h with hslot | ⟨_, _, hnone⟩
        · exact refusal_of_readSlot hslot
        · cases hnone
      · split at h
        · exact refusal_of_fault h
        · exact refusal_of_readPrimitive h

theorem refusal_of_readPrimitive {templates : Templates} {place : Address} {kind : Kind}
    {body : Value} {error : LoadError}
    (h : readPrimitive templates place kind body = .error error) : Refusal templates error := by
  cases body with
  | null => cases h
  | bool b => exact refusal_of_fault h
  | number n => exact refusal_of_fault h
  | text s => exact refusal_of_fault h
  | sequence items => exact refusal_of_fault h
  | tagged tag value => exact refusal_of_fault h
  | mapping fields =>
    rw [readPrimitive] at h
    rcases Run.bind_eq_error_iff.1 h with hprops | ⟨_, _, hrest⟩
    · exact refusal_of_propsOf hprops
    · rcases Run.bind_eq_error_iff.1 hrest with hchildren | ⟨_, _, hnone⟩
      · cases hread : readChildren templates (place.key "children") fields with
        | none =>
          rw [hread] at hchildren
          cases hchildren
        | some read =>
          rw [hread] at hchildren
          exact refusal_of_readChildren (hread.trans (congrArg some hchildren))
      · cases hnone

theorem refusal_of_readChildren {templates : Templates} {place : Address} {fields : Mapping}
    {error : LoadError} (h : readChildren templates place fields = some (.error error)) :
    Refusal templates error := by
  match fields with
  | [] => cases h
  | (key, value) :: fields =>
    rw [readChildren] at h
    split at h
    · rename_i hread
      cases h
      exact refusal_of_readChildren hread
    · split at h
      · exact refusal_of_readSlot (Option.some.inj h)
      · cases h

end

/-! ## Soundness -/

/--
A value without equal keys that is read was written in the grammar, and stands for the nodes that are
read, exactly if nothing in it is overlooked.  One that is not read was not written in the grammar, and
is refused with a fault at some place or for the name of a macro that is not declared.
-/
theorem readSlot_sound {templates : Templates} {value : Value} (place : Address)
    (hproper : value.Proper) :
    (∀ slot, readSlot templates place value = .ok slot →
      (Written templates value slot.nodes ↔ ¬Overlooks value)) ∧
    ∀ error, readSlot templates place value = .error error →
      Refusal templates error ∧ ∀ nodes, ¬Written templates value nodes := by
  constructor
  · intro slot hslot
    constructor
    · exact Written.not_overlooks
    · exact (denotes_of_readSlot hslot).written hproper
  · intro error herror
    refine ⟨refusal_of_readSlot herror, ?_⟩
    intro nodes hwritten
    rcases (denotes_iff place).1 hwritten.denotes with ⟨slot, hslot, -⟩
    cases herror.symm.trans hslot

/-- The use of a macro. -/
def cargoUse : Value := .mapping [(.text "use", .text "cargo")]

theorem cargoUse_proper : cargoUse.Proper :=
  .mapping (by simp [Entries.Distinct]) (List.forall_mem_singleton.2 (.text "use"))
    (List.forall_mem_singleton.2 (.text "cargo"))

/-- The use is read where the macro is declared, and refused where no macro is. -/
theorem readSlot_sound_cargoUse :
    (∃ slot, readSlot cargoTemplates (.start "root") cargoUse = .ok slot ∧
      (Written cargoTemplates cargoUse slot.nodes ↔ ¬Overlooks cargoUse)) ∧
    ∃ error, readSlot [] (.start "root") cargoUse = .error error ∧
      Refusal [] error ∧ ∀ nodes, ¬Written [] cargoUse nodes := by
  constructor
  · have hread : readSlot cargoTemplates (.start "root") cargoUse =
        .ok (.one (.custom ⟨"cargo", cargoTemplates⟩ [])) := rfl
    exact ⟨_, hread, (readSlot_sound _ cargoUse_proper).1 _ hread⟩
  · have hread : readSlot [] (.start "root") cargoUse = .error (.unknownMacro "cargo") := rfl
    exact ⟨_, hread, (readSlot_sound _ cargoUse_proper).2 _ hread⟩

/-- The use of a macro with an entry beside it that is no argument. -/
def strayUse : Value :=
  .mapping [(.text "use", .text "cargo"), (.number (.int 1), .text "x")]

/-- The entry is no part of what is read, and there is no way to write it in the grammar. -/
theorem stray_entry_ignored :
    strayUse.Proper ∧
      (∃ slot, readSlot cargoTemplates (.start "root") strayUse = .ok slot ∧
        slot.nodes = [.custom ⟨"cargo", cargoTemplates⟩ []]) ∧
      ∀ nodes, ¬Written cargoTemplates strayUse nodes := by
  have hstray : (Value.number (.int 1), Value.text "x") ∈
      [(Value.text "use", Value.text "cargo"), (.number (.int 1), .text "x")] := by simp
  refine ⟨?_, ⟨_, rfl, rfl⟩, ?_⟩
  · refine .mapping (by simp [Entries.Distinct, Value.beq_def, Value.same]) ?_ ?_
    · simpa using And.intro (Value.Proper.text "use") (Value.Proper.number (.int 1))
    · simpa using And.intro (Value.Proper.text "cargo") (Value.Proper.text "x")
  · intro nodes hwritten
    exact hwritten.not_overlooks (.besideUse (by simp [Entries.contains]) hstray (by simp))

end Authoring

end PipelineTree
