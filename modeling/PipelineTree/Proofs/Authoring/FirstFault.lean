import PipelineTree.Proofs.Authoring.Position

/-!
# FirstFault — which place a refusal points at

`Stands` gives the paths into a value that the reader goes: to the items of sequences, to the bodies of nodes, to
the children of primitives and to the arguments of uses.  `Flaw` says what can be wrong with something there,
without a look at what is around it.

A value that is not read is refused for a flaw at such a path, or for the use of a macro that is not declared,
and whatever stands in a child position before it can be read on its own (`readSlot_pinpoints`).
-/

namespace PipelineTree

namespace Address

/-- A place that is reached from another one by steps, the first one first. -/
def along (place : Address) : List Step → Address
  | [] => place
  | step :: path => (place.push step).along path

/-- The text of steps into a document. -/
def spelled : List Step → String
  | [] => ""
  | .index i :: path => s!"[{i}]" ++ spelled path
  | .key name :: path => "." ++ name ++ spelled path

theorem along_append (place : Address) (front path : List Step) :
    place.along (front ++ path) = (place.along front).along path := by
  induction front generalizing place with
  | nil => rfl
  | cons step front ih => exact ih (place.push step)

theorem text_along (place : Address) (path : List Step) :
    (place.along path).text = place.text ++ spelled path := by
  induction path generalizing place with
  | nil => simp [along, spelled]
  | cons step path ih =>
    rw [along, ih]
    cases step with
    | index i => rw [spelled, ← String.append_assoc]; rfl
    | key name => rw [spelled, ← String.append_assoc, ← String.append_assoc]; rfl

end Address

namespace Authoring

open Address

/-! ## Where something stands -/

/-- What something is for the value around it. -/
inductive Standing where
  | child
  | body (name : String)
  | arguments
  deriving DecidableEq, Repr

/-- What the reader meets in a value, and the path that leads there. -/
inductive Stands : Value → List Step → Standing → Value → Prop where
  | here {value : Value} : Stands value [] .child value
  | item {items : List Value} {i : Nat} {item value : Value} {path : List Step} {standing : Standing} :
      items[i]? = some item → Stands item path standing value →
        Stands (.sequence items) (.index i :: path) standing value
  | group {key body value : Value} {path : List Step} {standing : Standing} :
      key.text? = some "group" → Stands body path standing value →
        Stands (.mapping [(key, body)]) (.key "group" :: path) standing value
  | body {key body : Value} {name : String} :
      key.text? = some name → name ≠ "group" → Entries.contains (.text "use") [(key, body)] = false →
        Stands (.mapping [(key, body)]) [.key name] (.body name) body
  | children {kindKey key children value : Value} {kind : Kind} {before after : Mapping}
      {path : List Step} {standing : Standing} :
      kindKey.text? = some kind.name → key.text? = some "children" →
        (∀ field ∈ after, field.1.text? ≠ some "children") → Stands children path standing value →
        Stands (.mapping [(kindKey, .mapping (before ++ (key, children) :: after))])
          (.key kind.name :: .key "children" :: path) standing value
  | arguments {entries : Mapping} {value : Value} :
      Entries.contains (.text "use") entries = true → entries.lookup (.text "with") = some value →
        Stands (.mapping entries) [.key "with"] .arguments value

/-- A path that leads to something before that to which another one leads, and not into it. -/
inductive Precedes : List Step → List Step → Prop where
  | index {i j : Nat} {path other : List Step} : i < j → Precedes (.index i :: path) (.index j :: other)
  | step {step : Step} {path other : List Step} :
      Precedes path other → Precedes (step :: path) (step :: other)

/-- What is wrong with something, by what it is for the value around it. -/
inductive Flaw : Standing → Value → Fault → Prop where
  | notSlot {value : Value} :
      value ≠ .null → (∀ b, value ≠ .bool b) → (∀ items, value ≠ .sequence items) →
        (∀ entries, value ≠ .mapping entries) → Flaw .child value (.notSlot value.sort)
  | notSingleKey {entries : Mapping} :
      Entries.contains (.text "use") entries = false → entries.length ≠ 1 →
        Flaw .child (.mapping entries) .notSingleKey
  | kindNotText {key body : Value} : key.text? = none → Flaw .child (.mapping [(key, body)]) .kindNotText
  | unknownKind {name : String} {body : Value} :
      name ≠ "group" → (∀ kind, name ≠ Kind.name kind) →
        Flaw (.body name) body (.unknownKind name (Kind.all.map Kind.name))
  | notProperties {kind : Kind} {body : Value} :
      body ≠ .null → (∀ fields, body ≠ .mapping fields) →
        Flaw (.body kind.name) body (.notProperties body.sort)
  | propertyNotText {kind : Kind} {fields : Mapping} {field : Value × Value} :
      field ∈ fields → field.1.text? = none → Flaw (.body kind.name) (.mapping fields) .propertyNotText
  | strayKey {entries : Mapping} {entry : Value × Value} {name : String} :
      Entries.contains (.text "use") entries = true → entry ∈ entries → entry.1.text? = some name →
        name ≠ "use" → name ≠ "with" → Flaw .child (.mapping entries) (.strayKey name)
  | useNotText {entries : Mapping} :
      Entries.contains (.text "use") entries = true →
        (entries.lookup (.text "use")).bind Value.text? = none → Flaw .child (.mapping entries) .useNotText
  | withNotMapping {entries : Mapping} {value : Value} :
      Entries.contains (.text "use") entries = true → entries.lookup (.text "with") = some value →
        value ≠ .null → (∀ bindings, value ≠ .mapping bindings) →
        Flaw .child (.mapping entries) (.withNotMapping value.sort)
  | argumentNotText {bindings : Mapping} {binding : Value × Value} :
      binding ∈ bindings → binding.1.text? = none → Flaw .arguments (.mapping bindings) .propertyNotText

/-- Entries that are written as the use of a macro, which is not declared. -/
structure UsesUndeclared (templates : Templates) (entries : Mapping) (name : String) : Prop where
  use : Entries.contains (.text "use") entries = true
  named : (entries.lookup (.text "use")).bind Value.text? = some name
  undeclared : Entries.contains name templates = false

/-- An error is for what stands at a path in a value that is read at a place. -/
inductive Blames (templates : Templates) (place : Address) (value : Value) (path : List Step) :
    LoadError → Prop where
  | flaw {standing : Standing} {there : Value} {fault : Fault} :
      Stands value path standing there → Flaw standing there fault →
        Blames templates place value path (.invalid (.misplaced (place.along path) fault))
  | undeclared {entries : Mapping} {name : String} :
      Stands value path .child (.mapping entries) → UsesUndeclared templates entries name →
        Blames templates place value path (.unknownMacro name)

/-- A value can be read on its own, wherever it stands. -/
def Reads (templates : Templates) (value : Value) : Prop :=
  ∀ place, ∃ slot, readSlot templates place value = .ok slot

/-- An error is for something such that all children before it can be read. -/
def Pinpoints (templates : Templates) (place : Address) (value : Value) (error : LoadError) : Prop :=
  ∃ path, Blames templates place value path error ∧
    ∀ earlier child, Stands value earlier .child child → Precedes earlier path → Reads templates child

variable {templates : Templates} {place : Address} {value : Value} {error : LoadError}
  {path : List Step} {standing : Standing}

/-! ## What stands in a value that can be read -/

theorem reads_iff : Reads templates value ↔ ∃ nodes, Denotes templates value nodes := by
  constructor
  · intro h
    rcases h (.start "root") with ⟨slot, hslot⟩
    exact ⟨slot.nodes, denotes_of_readSlot hslot⟩
  · rintro ⟨nodes, hnodes⟩ place
    rcases (denotes_iff place).1 hnodes with ⟨slot, hslot, -⟩
    exact ⟨slot, hslot⟩

theorem Denotes.children {kindKey key children : Value} {kind : Kind} {before after : Mapping}
    {nodes : List (Node TemplateUse)}
    (h : Denotes templates (.mapping [(kindKey, .mapping (before ++ (key, children) :: after))]) nodes)
    (hkind : kindKey.text? = some kind.name) (hkey : key.text? = some "children")
    (hafter : ∀ field ∈ after, field.1.text? ≠ some "children") :
    ∃ nodes, Denotes templates children nodes := by
  cases h with
  | group hgroup => exact absurd hgroup (text?_ne_group hkind)
  | primitive _ _ hchildren hvalue =>
    cases hchildren.eq_of_last hkey hafter
    exact ⟨_, hvalue⟩
  | use huse => exact absurd (Option.some.inj (hkind.symm.trans huse.text?_key)) kind.name_ne_use

/-- Everything in a child position of a value that can be read can be read. -/
theorem Reads.stands {child : Value} (h : Reads templates value) (hstands : Stands value path .child child) :
    Reads templates child := by
  rw [reads_iff] at *
  generalize hchild : Standing.child = standing at hstands
  induction hstands with
  | here => exact h
  | item hitem _ ih =>
    rcases h with ⟨_, h⟩
    rcases h.of_item (List.mem_of_getElem? hitem) with ⟨_, hpart, -⟩
    exact ih ⟨_, hpart⟩ hchild
  | group hkey _ ih =>
    rcases h with ⟨_, h⟩
    rcases h.of_group (List.mem_singleton_self _) hkey with ⟨_, hbody, -⟩
    exact ih ⟨_, hbody⟩ hchild
  | body => cases hchild
  | children hkind hkey hafter _ ih =>
    rcases h with ⟨_, h⟩
    exact ih (h.children hkind hkey hafter) hchild
  | arguments => cases hchild

/-! ## What is wrong cannot be read -/

theorem Named.text?_ne_none {entries : Mapping} {named : Props} (h : Named entries named) :
    ∀ entry ∈ entries, entry.1.text? ≠ none := by
  induction h with
  | nil => simp
  | cons hentry _ ih =>
    refine List.forall_mem_cons.2 ⟨?_, ih⟩
    rw [hentry.1]
    exact Option.some_ne_none _

theorem Denotes.isUse {entries : Mapping} {nodes : List (Node TemplateUse)}
    (h : Denotes templates (.mapping entries) nodes)
    (huse : Entries.contains (.text "use") entries = true) :
    ∃ name arguments, IsUse entries name arguments ∧ Entries.contains name templates = true := by
  cases h with
  | group hkey => rw [contains_use_eq_false hkey (by decide)] at huse; cases huse
  | @bare _ kind hkey => rw [contains_use_eq_false hkey kind.name_ne_use] at huse; cases huse
  | @primitive _ _ kind _ _ _ hkey => rw [contains_use_eq_false hkey kind.name_ne_use] at huse; cases huse
  | use h hdeclared => exact ⟨_, _, h, hdeclared⟩

theorem Denotes.node_key {entries : Mapping} {nodes : List (Node TemplateUse)}
    (h : Denotes templates (.mapping entries) nodes)
    (hnouse : Entries.contains (.text "use") entries = false) :
    ∃ key body name, entries = [(key, body)] ∧ key.text? = some name := by
  cases h with
  | group hkey => exact ⟨_, _, _, rfl, hkey⟩
  | bare hkey => exact ⟨_, _, _, rfl, hkey⟩
  | primitive hkey => exact ⟨_, _, _, rfl, hkey⟩
  | use h => rw [h.contains_use] at hnouse; cases hnouse

theorem Denotes.not_flaw {nodes : List (Node TemplateUse)} {fault : Fault}
    (h : Denotes templates value nodes) : ¬Flaw .child value fault := by
  intro hflaw
  cases hflaw with
  | notSlot hnull hbool hsequence hmapping =>
    cases h with
    | null => exact hnull rfl
    | bool b => exact hbool b rfl
    | nil => exact hsequence _ rfl
    | cons => exact hsequence _ rfl
    | group => exact hmapping _ rfl
    | bare => exact hmapping _ rfl
    | primitive => exact hmapping _ rfl
    | use => exact hmapping _ rfl
  | notSingleKey hnouse hlength =>
    rcases h.node_key hnouse with ⟨_, _, _, rfl, -⟩
    exact hlength rfl
  | kindNotText hnone =>
    cases h with
    | group hkey => cases hkey.symm.trans hnone
    | bare hkey => cases hkey.symm.trans hnone
    | primitive hkey => cases hkey.symm.trans hnone
    | use huse => cases huse.text?_key.symm.trans hnone
  | strayKey huse hentry hname hnotUse hnotWith =>
    rcases h.isUse huse with ⟨_, _, hisUse, -⟩
    exact (hisUse.others _ hentry _ hname).elim hnotUse hnotWith
  | useNotText huse hnone =>
    rcases h.isUse huse with ⟨_, _, hisUse, -⟩
    cases hisUse.use.symm.trans hnone
  | withNotMapping huse hwith hnull hmapping =>
    rcases h.isUse huse with ⟨_, _, hisUse, -⟩
    have harguments := hisUse.arguments
    rw [hwith] at harguments
    cases harguments with
    | null => exact hnull rfl
    | mapping => exact hmapping _ rfl

theorem Denotes.not_flaw_body {key body : Value} {name : String} {nodes : List (Node TemplateUse)}
    {fault : Fault} (h : Denotes templates (.mapping [(key, body)]) nodes)
    (hkey : key.text? = some name) (hgroup : name ≠ "group")
    (hnouse : Entries.contains (.text "use") [(key, body)] = false) : ¬Flaw (.body name) body fault := by
  intro hflaw
  cases h with
  | group hother => exact hgroup (Option.some.inj (hkey.symm.trans hother))
  | @bare _ kind hkind =>
    have hname := Option.some.inj (hkey.symm.trans hkind)
    cases hflaw with
    | unknownKind _ hunknown => exact hunknown kind hname
    | notProperties hnull => exact hnull rfl
  | @primitive _ _ kind _ _ _ hkind hnamed =>
    have hname := Option.some.inj (hkey.symm.trans hkind)
    cases hflaw with
    | unknownKind _ hunknown => exact hunknown kind hname
    | notProperties _ hmapping => exact hmapping _ rfl
    | propertyNotText hfield hnone => exact hnamed.text?_ne_none _ hfield hnone
  | use huse => rw [huse.contains_use] at hnouse; cases hnouse

theorem Denotes.not_flaw_arguments {entries : Mapping} {bindings : Value}
    {nodes : List (Node TemplateUse)} {fault : Fault} (h : Denotes templates (.mapping entries) nodes)
    (huse : Entries.contains (.text "use") entries = true)
    (hwith : entries.lookup (.text "with") = some bindings) : ¬Flaw .arguments bindings fault := by
  intro hflaw
  rcases h.isUse huse with ⟨_, _, hisUse, -⟩
  have harguments := hisUse.arguments
  rw [hwith] at harguments
  cases hflaw with
  | argumentNotText hbinding hnone =>
    cases harguments with
    | mapping hnamed => exact hnamed.text?_ne_none _ hbinding hnone

/-- A value with something wrong in it cannot be read. -/
theorem not_reads_of_flaw {there : Value} {fault : Fault} (hstands : Stands value path standing there)
    (hflaw : Flaw standing there fault) : ¬Reads templates value := by
  rw [reads_iff]
  induction hstands with
  | here =>
    rintro ⟨_, h⟩
    exact h.not_flaw hflaw
  | item hitem _ ih =>
    rintro ⟨_, h⟩
    rcases h.of_item (List.mem_of_getElem? hitem) with ⟨_, hpart, -⟩
    exact ih hflaw ⟨_, hpart⟩
  | group hkey _ ih =>
    rintro ⟨_, h⟩
    rcases h.of_group (List.mem_singleton_self _) hkey with ⟨_, hbody, -⟩
    exact ih hflaw ⟨_, hbody⟩
  | body hkey hgroup hnouse =>
    rintro ⟨_, h⟩
    exact h.not_flaw_body hkey hgroup hnouse hflaw
  | children hkind hkey hafter _ ih =>
    rintro ⟨_, h⟩
    exact ih hflaw (h.children hkind hkey hafter)
  | arguments huse hwith =>
    rintro ⟨_, h⟩
    exact h.not_flaw_arguments huse hwith hflaw

/-- A value with the use of an undeclared macro in a child position cannot be read. -/
theorem not_reads_of_undeclared {entries : Mapping} {name : String}
    (hstands : Stands value path .child (.mapping entries))
    (hundeclared : UsesUndeclared templates entries name) : ¬Reads templates value := by
  intro h
  rcases reads_iff.1 (h.stands hstands) with ⟨_, hentries⟩
  rcases hentries.isUse hundeclared.use with ⟨_, _, hisUse, hdeclared⟩
  cases hisUse.use.symm.trans hundeclared.named
  rw [hundeclared.undeclared] at hdeclared
  cases hdeclared

/-! ## One step in -/

theorem Stands.below_group {key body child : Value}
    (h : Stands (.mapping [(key, body)]) path .child child) (hkey : key.text? = some "group") :
    path = [] ∨ ∃ inside, path = .key "group" :: inside ∧ Stands body inside .child child := by
  cases h with
  | here => exact .inl rfl
  | group _ hinside => exact .inr ⟨_, rfl, hinside⟩
  | children hkind => exact absurd hkey (text?_ne_group hkind)

theorem Stands.below_primitive {kindKey child : Value} {kind : Kind} {fields : Mapping}
    (h : Stands (.mapping [(kindKey, .mapping fields)]) path .child child)
    (hkind : kindKey.text? = some kind.name) :
    path = [] ∨ ∃ children inside, Children fields children ∧
      path = .key kind.name :: .key "children" :: inside ∧ Stands children inside .child child := by
  cases h with
  | here => exact .inl rfl
  | group hgroup => exact absurd hgroup (text?_ne_group hkind)
  | children hother hkey hafter hinside =>
    have hname := Option.some.inj (hother.symm.trans hkind)
    exact .inr ⟨_, _, .last hkey hafter, by rw [hname], hinside⟩

/-! ## One step out -/

theorem Precedes.not_of_keys {earlier : List Step} (hkeys : ∀ step ∈ path, ∃ name, step = .key name) :
    ¬Precedes earlier path := by
  intro h
  induction h with
  | index _ =>
    rcases hkeys _ List.mem_cons_self with ⟨name, hname⟩
    cases hname
  | step _ ih => exact ih fun step hstep => hkeys step (List.mem_cons_of_mem _ hstep)

/-- A path of names has nothing before it. -/
theorem Blames.pinpoints (h : Blames templates place value path error)
    (hkeys : ∀ step ∈ path, ∃ name, step = .key name) : Pinpoints templates place value error :=
  ⟨path, h, fun _ _ _ hprecedes => absurd hprecedes (Precedes.not_of_keys hkeys)⟩

theorem pinpoints_of_flaw {fault : Fault} (h : Flaw .child value fault) :
    Pinpoints templates place value (.invalid (.misplaced place fault)) :=
  Blames.pinpoints (.flaw .here h) (by simp)

theorem Blames.lift {inner outer : Value} {front : List Step}
    (h : Blames templates (place.along front) inner path error)
    (hdown : ∀ path standing value, Stands inner path standing value →
      Stands outer (front ++ path) standing value) :
    Blames templates place outer (front ++ path) error := by
  cases h with
  | flaw hstands hflaw =>
    rw [← along_append]
    exact .flaw (hdown _ _ _ hstands) hflaw
  | undeclared hstands hundeclared => exact .undeclared (hdown _ _ _ hstands) hundeclared

/-- An error in a part is an error in the whole, if what comes before the part can be read. -/
theorem Pinpoints.lift {inner outer : Value} (front : List Step)
    (h : Pinpoints templates (place.along front) inner error)
    (hdown : ∀ path standing value, Stands inner path standing value →
      Stands outer (front ++ path) standing value)
    (hbefore : ∀ earlier child path, Stands outer earlier .child child →
      Precedes earlier (front ++ path) → Reads templates child ∨
        ∃ inside, Stands inner inside .child child ∧ Precedes inside path) :
    Pinpoints templates place outer error := by
  rcases h with ⟨path, hblames, hreads⟩
  refine ⟨front ++ path, hblames.lift hdown, ?_⟩
  intro earlier child hstands hprecedes
  -- What comes before is beside the part, or in it and before what is wrong there.
  rcases hbefore earlier child path hstands hprecedes with hchild | ⟨inside, hinside, hbelow⟩
  · exact hchild
  · exact hreads inside child hinside hbelow

theorem Pinpoints.item {items : List Value} {i : Nat} {item : Value} (hitem : items[i]? = some item)
    (h : Pinpoints templates (place.item i) item error)
    (hbefore : ∀ j other, j < i → items[j]? = some other → Reads templates other) :
    Pinpoints templates place (.sequence items) error := by
  refine Pinpoints.lift [.index i] h (fun _ _ _ hstands => .item hitem hstands) ?_
  intro earlier child path hstands hprecedes
  cases hprecedes with
  | index hlt =>
    cases hstands with
    | item hother hinside => exact .inl ((hbefore _ _ hlt hother).stands hinside)
  | step hbelow =>
    cases hstands with
    | item hother hinside =>
      cases hitem.symm.trans hother
      exact .inr ⟨_, hinside, hbelow⟩

theorem Pinpoints.group {key body : Value} (hkey : key.text? = some "group")
    (h : Pinpoints templates (place.key "group") body error) :
    Pinpoints templates place (.mapping [(key, body)]) error := by
  refine Pinpoints.lift [.key "group"] h (fun _ _ _ hstands => .group hkey hstands) ?_
  intro earlier child path hstands hprecedes
  rcases hstands.below_group hkey with rfl | ⟨inside, rfl, hinside⟩
  · cases hprecedes
  · cases hprecedes with
    | step hbelow => exact .inr ⟨inside, hinside, hbelow⟩

theorem Pinpoints.children {kindKey key children : Value} {kind : Kind} {before after : Mapping}
    (hkind : kindKey.text? = some kind.name) (hkey : key.text? = some "children")
    (hafter : ∀ field ∈ after, field.1.text? ≠ some "children")
    (h : Pinpoints templates ((place.key kind.name).key "children") children error) :
    Pinpoints templates place (.mapping [(kindKey, .mapping (before ++ (key, children) :: after))])
      error := by
  refine Pinpoints.lift [.key kind.name, .key "children"] h
    (fun _ _ _ hstands => .children hkind hkey hafter hstands) ?_
  intro earlier child path hstands hprecedes
  rcases hstands.below_primitive hkind with rfl | ⟨inner, inside, hchildren, rfl, hinside⟩
  · cases hprecedes
  · cases hchildren.eq_of_last hkey hafter
    cases hprecedes with
    | step hbelow =>
      cases hbelow with
      | step hbelow => exact .inr ⟨inside, hinside, hbelow⟩

/-! ## What is refused -/

theorem eq_of_fault {α : Type} {f : Fault} (h : (fault place f : Except LoadError α) = .error error) :
    error = .invalid (.misplaced place f) := by
  cases h
  rfl

theorem exists_of_propsOf_error {entries : Mapping} (h : propsOf place entries = .error error) :
    error = .invalid (.misplaced place .propertyNotText) ∧ ∃ entry ∈ entries, entry.1.text? = none := by
  rcases Run.bind_eq_error_iff.1 h with hmap | ⟨_, _, hnone⟩
  · rcases Run.exists_of_mapM_eq_error hmap with ⟨⟨key, value⟩, hmem, hentry⟩
    cases hkey : key.text? with
    | none => exact ⟨eq_of_fault (by simpa [hkey] using hentry), (key, value), hmem, hkey⟩
    | some name => simp [hkey] at hentry
  · cases hnone

theorem pinpoints_of_readUse {entries : Mapping} (huse : Entries.contains (.text "use") entries = true)
    (h : readUse templates place entries = .error error) :
    Pinpoints templates place (.mapping entries) error := by
  unfold readUse at h
  split at h
  · rename_i name hstray
    have hfound := List.find?_some hstray
    rcases List.mem_filterMap.1 (List.mem_of_find?_eq_some hstray) with ⟨entry, hentry, hname⟩
    simp only [Bool.and_eq_true, bne_iff_ne] at hfound
    rw [eq_of_fault h]
    exact pinpoints_of_flaw (.strayKey huse hentry hname hfound.1 hfound.2)
  · split at h
    · rename_i hname
      rw [eq_of_fault h]
      exact pinpoints_of_flaw (.useNotText huse hname)
    · rename_i name hname
      split at h
      · split at h
        · cases h
        · cases h
        · rename_i bindings hwith
          rcases Run.bind_eq_error_iff.1 h with hprops | ⟨_, _, hnone⟩
          · rcases exists_of_propsOf_error hprops with ⟨rfl, binding, hbinding, hkey⟩
            exact Blames.pinpoints (.flaw (.arguments huse hwith) (.argumentNotText hbinding hkey)) (by simp)
          · cases hnone
        · rename_i other hnull hmapping hwith
          rw [eq_of_fault h]
          exact pinpoints_of_flaw (.withNotMapping huse hwith hnull hmapping)
      · rename_i hdeclared
        cases h
        exact Blames.pinpoints (.undeclared .here ⟨huse, hname, by simpa using hdeclared⟩) (by simp)

mutual

theorem pinpoints_of_readSlot {place : Address} {value : Value} {error : LoadError}
    (h : readSlot templates place value = .error error) :
    Pinpoints templates place value error := by
  cases value with
  | null => cases h
  | bool b => cases h
  | number n =>
    cases h
    exact pinpoints_of_flaw (.notSlot (by simp) (by simp) (by simp) (by simp))
  | text s =>
    cases h
    exact pinpoints_of_flaw (.notSlot (by simp) (by simp) (by simp) (by simp))
  | tagged tag value =>
    cases h
    exact pinpoints_of_flaw (.notSlot (by simp) (by simp) (by simp) (by simp))
  | sequence items =>
    rw [readSlot] at h
    rcases pinpoints_of_readItems (Run.map_eq_error_iff.1 h) with ⟨i, item, hitem, hpinpoints, hbefore⟩
    rw [Nat.zero_add] at hpinpoints
    exact .item hitem hpinpoints hbefore
  | mapping entries =>
    rw [readSlot] at h
    split at h
    · rename_i huse
      exact pinpoints_of_readUse huse (Run.map_eq_error_iff.1 h)
    · rename_i hnouse
      exact pinpoints_of_readNode (by simpa using hnouse) (Run.map_eq_error_iff.1 h)

theorem pinpoints_of_readItems {place : Address} {position : Nat} {items : List Value} {error : LoadError}
    (h : readItems templates place position items = .error error) :
    ∃ i item, items[i]? = some item ∧ Pinpoints templates (place.item (position + i)) item error ∧
      ∀ j other, j < i → items[j]? = some other → Reads templates other := by
  cases items with
  | nil => cases h
  | cons item items =>
    rw [readItems] at h
    rcases Run.bind_eq_error_iff.1 h with hitem | ⟨slot, hslot, hrest⟩
    · exact ⟨0, item, rfl, pinpoints_of_readSlot hitem, by simp⟩
    · rcases Run.bind_eq_error_iff.1 hrest with hitems | ⟨_, _, hnone⟩
      · rcases pinpoints_of_readItems hitems with ⟨i, there, hthere, hpinpoints, hbefore⟩
        refine ⟨i + 1, there, hthere, by rwa [Nat.add_right_comm] at hpinpoints, ?_⟩
        intro j other hlt hother
        cases j with
        | zero =>
          -- The reader goes on to the other items only after this one.
          cases hother
          exact reads_iff.2 ⟨_, denotes_of_readSlot hslot⟩
        | succ j => exact hbefore j other (Nat.lt_of_succ_lt_succ hlt) hother
      · cases hnone

theorem pinpoints_of_readNode {place : Address} {entries : Mapping} {error : LoadError}
    (hnouse : Entries.contains (.text "use") entries = false)
    (h : readNode templates place entries = .error error) :
    Pinpoints templates place (.mapping entries) error := by
  match entries with
  | [] =>
    cases h
    exact pinpoints_of_flaw (.notSingleKey hnouse (by simp))
  | (_ :: _ :: _) =>
    cases h
    exact pinpoints_of_flaw (.notSingleKey hnouse (by simp))
  | [(key, body)] =>
    rw [readNode] at h
    cases htext : key.text? with
    | none =>
      rw [htext] at h
      rw [eq_of_fault h]
      exact pinpoints_of_flaw (.kindNotText htext)
    | some name =>
      simp only [htext, beq_iff_eq] at h
      split at h
      · rename_i hgroup
        subst hgroup
        rcases Run.bind_eq_error_iff.1 h with hbody | ⟨_, _, hnone⟩
        · exact .group htext (pinpoints_of_readSlot hbody)
        · cases hnone
      · rename_i hgroup
        split at h
        · rename_i hunknown
          have hkinds : ∀ kind, name ≠ Kind.name kind := by
            intro kind hkind
            rw [Kind.ofName?_eq_some_iff.2 hkind] at hunknown
            cases hunknown
          rw [eq_of_fault h]
          exact Blames.pinpoints (.flaw (.body htext hgroup hnouse) (.unknownKind hgroup hkinds)) (by simp)
        · rename_i kind hkind
          rw [Kind.ofName?_eq_some_iff.1 hkind] at htext h
          exact pinpoints_of_readPrimitive htext h

theorem pinpoints_of_readPrimitive {place : Address} {key body : Value} {kind : Kind}
    {error : LoadError} (hkey : key.text? = some kind.name)
    (h : readPrimitive templates (place.key kind.name) kind body = .error error) :
    Pinpoints templates place (.mapping [(key, body)]) error := by
  have hnouse : Entries.contains (.text "use") [(key, body)] = false :=
    contains_use_eq_false hkey kind.name_ne_use
  have hflaw {fault : Fault} (hfault : Flaw (.body kind.name) body fault) :
      Pinpoints templates place (.mapping [(key, body)])
        (.invalid (.misplaced (place.key kind.name) fault)) :=
    Blames.pinpoints (.flaw (.body hkey kind.name_ne_group hnouse) hfault) (by simp)
  cases body with
  | null => cases h
  | bool b => rw [eq_of_fault h]; exact hflaw (.notProperties (by simp) (by simp))
  | number n => rw [eq_of_fault h]; exact hflaw (.notProperties (by simp) (by simp))
  | text s => rw [eq_of_fault h]; exact hflaw (.notProperties (by simp) (by simp))
  | sequence items => rw [eq_of_fault h]; exact hflaw (.notProperties (by simp) (by simp))
  | tagged tag value => rw [eq_of_fault h]; exact hflaw (.notProperties (by simp) (by simp))
  | mapping fields =>
    rw [readPrimitive] at h
    rcases Run.bind_eq_error_iff.1 h with hprops | ⟨props, -, hrest⟩
    · rcases exists_of_propsOf_error hprops with ⟨rfl, field, hfield, hname⟩
      exact hflaw (.propertyNotText hfield hname)
    · rcases Run.bind_eq_error_iff.1 hrest with hchildren | ⟨_, _, hnone⟩
      · cases hread : readChildren templates ((place.key kind.name).key "children") fields with
        | none =>
          rw [hread] at hchildren
          cases hchildren
        | some read =>
          rw [hread] at hchildren
          cases hchildren
          rcases pinpoints_of_readChildren hread with
            ⟨before, childrenKey, children, after, rfl, hchildrenKey, hafter, hpinpoints⟩
          exact .children hkey hchildrenKey hafter hpinpoints
      · cases hnone

theorem pinpoints_of_readChildren {place : Address} {fields : Mapping} {error : LoadError}
    (h : readChildren templates place fields = some (.error error)) :
    ∃ before key children after, fields = before ++ (key, children) :: after ∧
      key.text? = some "children" ∧ (∀ field ∈ after, field.1.text? ≠ some "children") ∧
      Pinpoints templates place children error := by
  match fields with
  | [] => cases h
  | (key, value) :: fields =>
    rw [readChildren] at h
    cases hrest : readChildren templates place fields with
    | some read =>
      rw [hrest] at h
      cases h
      rcases pinpoints_of_readChildren hrest with ⟨before, last, children, after, rfl, hlast⟩
      exact ⟨(key, value) :: before, last, children, after, rfl, hlast⟩
    | none =>
      -- No field behind has the name, so this is the one that counts.
      rw [hrest] at h
      simp only [beq_iff_eq, Option.ite_none_right_eq_some, Option.some.injEq] at h
      exact ⟨[], key, value, fields, rfl, h.1, readChildren_eq_none_iff.1 hrest,
        pinpoints_of_readSlot h.2⟩

end

/-- Something that keeps every value in which it stands from being read. -/
def Spoils (templates : Templates) (standing : Standing) (there : Value) : Prop :=
  ∀ value path, Stands value path standing there → ¬Reads templates value

/--
What an error says of a path into the root: something is wrong there, and its address stands in front of the
reason, or a macro is used there that is not declared.
-/
def Reports (templates : Templates) (root : Value) (path : List Step) : LoadError → Prop
  | .invalid shape => ∃ standing there fault, Stands root path standing there ∧
      Flaw standing there fault ∧ Spoils templates standing there ∧
      shape.reason = "root" ++ spelled path ++ ": " ++ fault.text
  | .unknownMacro name => ∃ entries, Stands root path .child (.mapping entries) ∧
      UsesUndeclared templates entries name ∧ Spoils templates .child (.mapping entries)

theorem Blames.reports {root : Value} (h : Blames templates (.start "root") root path error) :
    Reports templates root path error := by
  cases h with
  | @flaw standing there fault hstands hflaw =>
    have htext : (Address.along (.start "root") path).text = "root" ++ spelled path :=
      text_along (.start "root") path
    refine ⟨standing, there, fault, hstands, hflaw, ?_, ?_⟩
    · exact fun _ _ hother => not_reads_of_flaw hother hflaw
    · exact congrArg (fun text => text ++ ": " ++ fault.text) htext
  | undeclared hstands hundeclared =>
    exact ⟨_, hstands, hundeclared, fun _ _ hother => not_reads_of_undeclared hother hundeclared⟩

/--
A root that is refused is refused for the first thing in it that is wrong.  An error about its shape begins with
the address of something that is wrong by itself: a value in a child position, the body of a node or the arguments
of a use.  Any other error is for a use in a child position that names a macro that is not declared.  Either way,
all that stands in child positions before it can be read on its own.
-/
theorem readSlot_pinpoints {templates : Templates} {root : Value} {error : LoadError}
    (h : readSlot templates (.start "root") root = .error error) :
    ∃ path, Reports templates root path error ∧
      ∀ earlier child, Stands root earlier .child child → Precedes earlier path → Reads templates child := by
  rcases pinpoints_of_readSlot h with ⟨path, hblames, hbefore⟩
  exact ⟨path, hblames.reports, hbefore⟩

/-- A workflow with an empty job, a job with a step of no kind, and a number. -/
def brokenWorkflow : Value :=
  .mapping [(.text "github.workflow", .mapping [(.text "children", .sequence
    [ .mapping [(.text "github.job", .null)],
      .mapping [(.text "github.job",
        .mapping [(.text "children", .mapping [(.text "github.stop", .null)])])],
      .number (.int 7) ])])]

def brokenWorkflowFault : ShapeError :=
  .misplaced
    (Address.along (.start "root")
      [.key "github.workflow", .key "children", .index 1, .key "github.job", .key "children",
        .key "github.stop"])
    (.unknownKind "github.stop" (Kind.all.map Kind.name))

/-- The step in the second job is reported, not the number behind it. -/
theorem readSlot_pinpoints_secondJob :
    readSlot [] (.start "root") brokenWorkflow = .error (.invalid brokenWorkflowFault) ∧
      brokenWorkflowFault.reason =
        "root.github.workflow.children[1].github.job.children.github.stop: " ++
          "unknown node kind 'github.stop'" ∧
      ∃ path, Reports [] brokenWorkflow path (.invalid brokenWorkflowFault) ∧
        ∀ earlier child, Stands brokenWorkflow earlier .child child → Precedes earlier path →
          Reads [] child := by
  have hread : readSlot [] (.start "root") brokenWorkflow = .error (.invalid brokenWorkflowFault) := rfl
  exact ⟨hread, by decide, readSlot_pinpoints hread⟩

end Authoring

end PipelineTree
