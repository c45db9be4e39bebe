import PipelineTree.Authoring.Reading
import PipelineTree.Proofs.Authoring.Cycle
import PipelineTree.Proofs.Authoring.FirstFault
import PipelineTree.Proofs.Authoring.Inlining
import PipelineTree.Proofs.Platform.Causes
import PipelineTree.Proofs.Template.Refusal
import PipelineTree.Proofs.Value.Settling

/-!
# Declared — macros that are used are declared

What is read from a value uses declared macros only, and looks them up where these are declared.  As macros stand
for what is read from their filled bodies, this holds of all nodes that arise from a tree that loads
(`Node.Arises.declared`), and no rule of theirs misses its macro.

A use of a macro that is not declared is met when it is read: in the root, or in the filled body of a macro, to
which it came from the body or from a parameter (`Supplies`).  `Document.load_uses_declared` puts this together.
-/

namespace PipelineTree

open Authoring Substitution

/-- All custom nodes in a tree use declared macros, and look them up where these are declared. -/
inductive Node.Declared (templates : Templates) : Node TemplateUse → Prop where
  | primitive {kind : Kind} {props : Props} {children : List (Node TemplateUse)} :
      (∀ child ∈ children, Declared templates child) →
        Declared templates (.primitive kind props children)
  | group {children : List (Node TemplateUse)} :
      (∀ child ∈ children, Declared templates child) → Declared templates (.group children)
  | custom {name : String} {props : Props} :
      Entries.contains name templates = true → Declared templates (.custom ⟨name, templates⟩ props)

variable {templates : Templates}

/-! ## All nodes that arise -/

theorem Authoring.Denotes.declared {value : Value} {nodes : List (Node TemplateUse)}
    (h : Denotes templates value nodes) : ∀ node ∈ nodes, node.Declared templates := by
  induction h with
  | null => simp
  | bool b => simp
  | nil => simp
  | cons _ _ ihitem ihitems => exact List.forall_mem_append.2 ⟨ihitem, ihitems⟩
  | group _ _ ih => exact List.forall_mem_singleton.2 (.group ih)
  | bare _ => exact List.forall_mem_singleton.2 (.primitive (by simp))
  | primitive _ _ _ _ ih => exact List.forall_mem_singleton.2 (.primitive ih)
  | use _ hdeclared => exact List.forall_mem_singleton.2 (.custom hdeclared)

/-- Being declared passes from a tree to its children, and from a use to what it stands for. -/
theorem Node.Arises.declared {root node : Node TemplateUse} (h : root.Arises node)
    (hroot : root.Declared templates) : node.Declared templates := by
  induction h with
  | root => exact hroot
  | child _ hchild ih =>
    cases ih with
    | primitive hchildren => exact hchildren _ hchild
  | member _ hchild ih =>
    cases ih with
    | group hchildren => exact hchildren _ hchild
  | returned _ hinvoke hnode ih =>
    cases ih with
    | custom _ =>
      -- What the rule returns is read from a filled body, with the same macros.
      rcases TemplateUse.of_invoke hinvoke with ⟨_, _, -, -, hnodes⟩
      exact hnodes.declared _ hnode

theorem Document.declared_of_tree {document : Document} {root : Node TemplateUse}
    (h : document.tree = .ok root) : root.Declared document.templates :=
  (Document.tree_eq_ok_iff.1 h).declared root (List.mem_singleton_self root)

/-! ## Uses of undeclared macros in a value -/

/-- A macro that is not declared is used in a child position of a value. -/
def Authoring.Misses (templates : Templates) (value : Value) (name : String) : Prop :=
  ∃ path entries, Stands value path .child (.mapping entries) ∧ UsesUndeclared templates entries name

theorem Authoring.Pinpoints.misses {place : Address} {value : Value} {name : String}
    (h : Pinpoints templates place value (.unknownMacro name)) : Misses templates value name := by
  rcases h with ⟨path, hblames, -⟩
  cases hblames with
  | undeclared hstands hundeclared => exact ⟨path, _, hstands, hundeclared⟩

/-- A value that uses a macro that is not declared is refused for the first thing in it that is wrong. -/
theorem Authoring.Misses.refused {value : Value} {name : String} (h : Misses templates value name)
    (place : Address) :
    ∃ error, readSlot templates place value = .error error ∧ Pinpoints templates place value error := by
  rcases h with ⟨path, entries, hstands, hundeclared⟩
  cases hread : readSlot templates place value with
  | error error => exact ⟨error, rfl, pinpoints_of_readSlot hread⟩
  | ok slot =>
    have hreads : Reads templates value := reads_iff.2 ⟨_, denotes_of_readSlot hread⟩
    exact absurd hreads (not_reads_of_undeclared hstands hundeclared)

/-! ## Where a use comes from -/

/--
Something in a value becomes a use when parameters are filled in: a mapping that is written there, or a parameter
that stands alone, the value of which encloses the use.
-/
inductive Supplies (params : Props) (use : Value) : Value → Prop where
  | written {entries : Mapping} :
      Filled params Entries.ofList (.mapping entries) use → Supplies params use (.mapping entries)
  | passed {s name : String} {value : Value} :
      Placeholder.IsWhole name s.toList → params.lookup name = some value → value.Encloses use →
        Supplies params use (.text s)
  | item {items : List Value} {item : Value} :
      item ∈ items → Supplies params use item → Supplies params use (.sequence items)
  | entry {entries : Mapping} {key value : Value} :
      (key, value) ∈ entries → Supplies params use value → Supplies params use (.mapping entries)

section Origin

variable {params : Props} {source value use : Value}

theorem Authoring.Stands.encloses {path : List Address.Step} {standing : Standing} {there : Value}
    (h : Stands value path standing there) : value.Encloses there := by
  induction h with
  | here => exact .whole _
  | item hitem _ ih => exact .item (List.mem_of_getElem? hitem) ih
  | group _ _ ih => exact .entry (List.mem_singleton_self _) ih
  | body => exact .entry (List.mem_singleton_self _) (.whole _)
  | children _ _ _ _ ih =>
    exact .entry (List.mem_singleton_self _)
      (.entry (List.mem_append_right _ List.mem_cons_self) ih)
  | arguments _ hwith => exact .entry (Entries.mem_of_lookup_text hwith) (.whole _)

/-- A filled mapping is the value of a parameter, or each of its values is filled from one in a mapping. -/
theorem Substitution.Filled.of_mapping {entries : Mapping}
    (h : Filled params Entries.ofList source (.mapping entries))
    (hencloses : (Value.mapping entries).Encloses use) :
    Supplies params use source ∨ ∃ written : Mapping, source = .mapping written ∧
      ∀ entry ∈ entries, ∃ other ∈ written, Filled params Entries.ofList other.2 entry.2 := by
  cases h with
  | whole hwhole hvalue => exact .inl (.passed hwhole hvalue hencloses)
  | @mapping written filled hfilled =>
    refine .inr ⟨written, rfl, ?_⟩
    intro entry hentry
    rcases Entries.value_of_mem_ofList hentry with ⟨other, hother, hsame⟩
    rcases exists_of_mem_right hfilled hother with ⟨first, hfirst, ⟨-, hvalue⟩⟩
    exact ⟨_, hfirst, hsame ▸ hvalue⟩

/-- Something in a value of a filled mapping comes from the value that is filled there. -/
theorem Supplies.of_entry {entries written : Mapping} {key : Value}
    (hwritten : ∀ entry ∈ entries, ∃ other ∈ written, Filled params Entries.ofList other.2 entry.2)
    (hmem : (key, value) ∈ entries)
    (hvalue : ∀ {source}, Filled params Entries.ofList source value → Supplies params use source) :
    Supplies params use (.mapping written) := by
  rcases hwritten _ hmem with ⟨other, hother, hfilled⟩
  exact .entry hother (hvalue hfilled)

/-- A mapping in a child position of a filled value comes from the value or from a parameter. -/
theorem supplies_of_filled {path : List Address.Step} {entries : Mapping}
    (hstands : Stands value path .child (.mapping entries))
    (h : Filled params Entries.ofList source value) : Supplies params (.mapping entries) source := by
  generalize hstanding : Standing.child = standing at hstands
  generalize hthere : Value.mapping entries = there at hstands ⊢
  -- The source is followed along the path until the mapping is reached, or a parameter that encloses it.
  induction hstands generalizing source with
  | here =>
    subst hthere
    cases h with
    | whole hwhole hvalue => exact .passed hwhole hvalue (.whole _)
    | mapping hentries => exact .written (.mapping hentries)
  | @item items i item there path _ hitem hinside ih =>
    have hmem : item ∈ items := List.mem_of_getElem? hitem
    cases h with
    | whole hwhole hvalue => exact .passed hwhole hvalue (.item hmem hinside.encloses)
    | sequence hitems =>
      rcases exists_of_mem_right hitems hmem with ⟨other, hother, hfilled⟩
      exact .item hother (ih hfilled hstanding hthere)
  | @group key body there path _ hkey hinside ih =>
    have hmem : (key, body) ∈ [(key, body)] := List.mem_singleton_self _
    rcases h.of_mapping (.entry hmem hinside.encloses) with hsupplies | ⟨written, rfl, hwritten⟩
    · exact hsupplies
    · exact .of_entry hwritten hmem fun hfilled => ih hfilled hstanding hthere
  | body => cases hstanding
  | @children kindKey key children there kind before after path _ _ _ _ hinside ih =>
    have hmem : (key, children) ∈ before ++ (key, children) :: after :=
      List.mem_append_right _ List.mem_cons_self
    have hfields := List.mem_singleton_self (kindKey, Value.mapping (before ++ (key, children) :: after))
    rcases h.of_mapping (.entry hfields (.entry hmem hinside.encloses)) with
      hsupplies | ⟨written, rfl, hwritten⟩
    · exact hsupplies
    · refine .of_entry hwritten hfields fun hfilled => ?_
      -- The properties of the node may be a parameter, too.
      rcases hfilled.of_mapping (.entry hmem hinside.encloses) with hsupplies | ⟨inner, rfl, hinner⟩
      · exact hsupplies
      · exact .of_entry hinner hmem fun hfilled => ih hfilled hstanding hthere
  | arguments => cases hstanding

end Origin

/-! ## How uses fail -/

/--
A macro is used below a root, and its filled body uses another one, which is not declared; that use comes from the
body of the macro or from a parameter.
-/
inductive Document.FailsFor (document : Document) (root : Node TemplateUse) (rule missing : String) :
    Prop where
  | intro {template : Template} {arguments : Props} {body : Value} {path : List Address.Step}
      {entries : Mapping} (declared : document.templates.lookup rule = some template)
      (arises : root.Arises (.custom ⟨rule, document.templates⟩ arguments))
      (filled : Filled (Entries.overlay template.params arguments) Entries.ofList template.body body)
      (stands : Stands body path .child (.mapping entries))
      (undeclared : UsesUndeclared document.templates entries missing)
      (supplied : Supplies (Entries.overlay template.params arguments) (.mapping entries) template.body)

/-- The use of a declared macro fails where parameters are filled in, or where the filled body is read. -/
theorem TemplateUse.of_invoke_error {name : String} {arguments : Props} {cause : RuleError}
    (hdeclared : Entries.contains name templates = true)
    (h : (TemplateUse.mk name templates).invoke arguments = .error cause) :
    Substitution.Refused cause ∨ ∃ template body error, templates.lookup name = some template ∧
      Filled (Entries.overlay template.params arguments) Entries.ofList template.body body ∧
      cause = .load error ∧ Pinpoints templates (.start s!"macro '{name}'") body error := by
  rw [TemplateUse.invoke] at h
  split at h
  · rename_i hnone
    exact absurd hnone (Entries.contains_iff.1 hdeclared)
  · rename_i template htemplate
    rcases Run.bind_eq_error_iff.1 h with hfilling | ⟨body, hbody, hread⟩
    · exact .inl (refuses_substitute _ _ _ hfilling)
    · split at hread
      · cases hread
      · rename_i error herror
        cases hread
        exact .inr ⟨template, body, error, htemplate, substitute_eq_ok_iff.1 hbody, rfl,
          pinpoints_of_readSlot herror⟩

/-- A use fails if its filled body uses a macro that is not declared. -/
theorem TemplateUse.invoke_of_misses {name missing : String} {template : Template} {arguments : Props}
    {body : Value} (htemplate : templates.lookup name = some template)
    (hfilled : Filled (Entries.overlay template.params arguments) Entries.ofList template.body body)
    (hmisses : Misses templates body missing) :
    ∃ error, (TemplateUse.mk name templates).invoke arguments = .error (.load error) ∧
      Pinpoints templates (.start s!"macro '{name}'") body error := by
  rcases hmisses.refused (.start s!"macro '{name}'") with ⟨error, herror, hpinpoints⟩
  refine ⟨error, ?_, hpinpoints⟩
  simp only [TemplateUse.invoke, htemplate, substitute_eq_ok_iff.2 hfilled, Run.ok_bind, herror]

/-- No rule of a node that arises from a declared root misses its macro. -/
theorem Node.Arises.invoke_ne_undeclaredMacro {root : Node TemplateUse} {use : TemplateUse}
    {arguments : Props} (h : root.Arises (.custom use arguments)) (hroot : root.Declared templates)
    (name : String) : use.invoke arguments ≠ .error (.undeclaredMacro name) := by
  intro hinvoke
  cases h.declared hroot with
  | custom hdeclared =>
    rcases TemplateUse.of_invoke_error hdeclared hinvoke with hrefused | ⟨_, _, _, -, -, hcause, -⟩
    · cases hrefused
    · cases hcause

/-- Rendering names a macro that is not declared only for a use whose filled body uses it. -/
theorem Document.failsFor_of_render {document : Document} {root : Node TemplateUse} {limit : Nat}
    {rule missing : String} (hroot : root.Declared document.templates)
    (h : (Registry.builtin.render limit root).result =
      .error (.expansionFailed rule (.load (.unknownMacro missing)))) :
    document.FailsFor root rule missing := by
  cases Registry.fails_of_render (List.Subset.refl _) h with
  | @rule use arguments _ harises hinvoke =>
    cases harises.declared hroot with
    | custom hdeclared =>
      rcases TemplateUse.of_invoke_error hdeclared hinvoke with
        hrefused | ⟨template, body, error, htemplate, hfilled, hcause, hpinpoints⟩
      · cases hrefused
      · cases hcause
        rcases hpinpoints.misses with ⟨path, entries, hstands, hundeclared⟩
        exact .intro htemplate harises hfilled hstands hundeclared (supplies_of_filled hstands hfilled)

/-! ## How loading fails -/

theorem Document.misses_of_tree {document : Document} {missing : String}
    (h : document.tree = .error (.unknownMacro missing)) :
    Misses document.templates document.root missing := by
  rw [tree] at h
  rcases Run.bind_eq_error_iff.1 h with hread | ⟨slot, -, hnodes⟩
  · exact (pinpoints_of_readSlot hread).misses
  · split at hnodes <;> cases hnodes

theorem Document.tree_of_misses {document : Document} {missing : String}
    (h : Misses document.templates document.root missing) :
    ∃ error, document.tree = .error error ∧
      Pinpoints document.templates (.start "root") document.root error := by
  rcases h.refused (.start "root") with ⟨error, hread, hpinpoints⟩
  refine ⟨error, ?_, hpinpoints⟩
  rw [tree, hread, Run.error_bind]

section Loading

variable {format : Format} {text : String} {document : Document}

theorem Document.load_of_ofText (h : ofText format text = .ok document) :
    load format text = document.tree.mapError Error.ofLoad := by
  rw [load, h, Run.ok_bind]

theorem Document.tree_of_load {root : Node TemplateUse} (h : ofText format text = .ok document)
    (hload : load format text = .ok root) : document.tree = .ok root := by
  rw [load_of_ofText h] at hload
  cases htree : document.tree with
  | ok node =>
    rw [htree] at hload
    cases hload
    rfl
  | error error =>
    rw [htree] at hload
    cases hload

theorem Document.tree_of_load_unknownMacro {missing : String} (h : ofText format text = .ok document)
    (hload : load format text = .error (.unknownMacro missing)) :
    document.tree = .error (.unknownMacro missing) := by
  rw [load_of_ofText h] at hload
  cases htree : document.tree with
  | ok node =>
    rw [htree] at hload
    cases hload
  | error error =>
    rw [htree] at hload
    cases error with
    | invalid => cases hload
    | unknownMacro name =>
      cases hload
      rfl

/--
All custom nodes that come up in a tree that loads, or in what their rules return, without limit, use macros of the
document, and look them up where the document declares them; no rule misses its macro.  A use of a macro that is
not declared makes the reading fail that meets it, that of the root or that of the filled body of a macro, for this
or for something that is wrong before it.  Where rendering fails so, it names the macro; the use comes from the body
of that or from a parameter.
-/
theorem Document.load_uses_declared (h : ofText format text = .ok document) :
    (∀ root, load format text = .ok root →
      (∀ use arguments, root.Arises (.custom use arguments) →
        use.templates = document.templates ∧ Entries.contains use.name document.templates = true ∧
        (∀ name, use.invoke arguments ≠ .error (.undeclaredMacro name)) ∧
        ∀ template body missing, document.templates.lookup use.name = some template →
          Filled (Entries.overlay template.params arguments) Entries.ofList template.body body →
          Misses document.templates body missing →
          ∃ error, use.invoke arguments = .error (.load error) ∧
            Pinpoints document.templates (.start s!"macro '{use.name}'") body error) ∧
      ∀ limit error, (Registry.builtin.render limit root).result = .error error →
        (∀ name, error ≠ .unknownMacro name) ∧
        (∀ rule name, error ≠ .expansionFailed rule (.undeclaredMacro name)) ∧
        ∀ rule missing, error = .expansionFailed rule (.load (.unknownMacro missing)) →
          document.FailsFor root rule missing) ∧
    (∀ missing, load format text = .error (.unknownMacro missing) →
      Misses document.templates document.root missing) ∧
    ∀ missing, Misses document.templates document.root missing →
      ∃ error, load format text = .error (.ofLoad error) ∧
        Pinpoints document.templates (.start "root") document.root error := by
  refine ⟨?_, ?_, ?_⟩
  · intro root hload
    have hroot : root.Declared document.templates := declared_of_tree (tree_of_load h hload)
    refine ⟨?_, ?_⟩
    · rintro ⟨name, templates⟩ arguments harises
      have hmacro := harises.invoke_ne_undeclaredMacro hroot
      cases harises.declared hroot with
      | custom hdeclared =>
        refine ⟨rfl, hdeclared, hmacro, ?_⟩
        intro template body missing htemplate hfilled hmisses
        exact TemplateUse.invoke_of_misses htemplate hfilled hmisses
    · intro limit error herror
      have hfails : root.Fails error := Registry.fails_of_render (List.Subset.refl _) herror
      refine ⟨?_, ?_, ?_⟩
      · rintro name rfl
        cases hfails
      · rintro rule name rfl
        cases hfails with
        | rule harises hinvoke => exact harises.invoke_ne_undeclaredMacro hroot name hinvoke
      · rintro rule missing rfl
        exact failsFor_of_render hroot herror
  · intro missing hload
    exact misses_of_tree (tree_of_load_unknownMacro h hload)
  · intro missing hmisses
    rcases tree_of_misses hmisses with ⟨error, htree, hpinpoints⟩
    refine ⟨error, ?_, hpinpoints⟩
    rw [load_of_ofText h, htree]
    rfl

/-- A workflow whose children are made by a macro from a use that is passed to it. -/
def forwardedUse : String :=
  "macros:\n" ++
  "  forward:\n" ++
  "    body: $\x7b\x7b params.step \x7d\x7d\n" ++
  "root:\n" ++
  "  github.workflow:\n" ++
  "    children:\n" ++
  "      use: forward\n" ++
  "      with:\n" ++
  "        step:\n" ++
  "          use: missing\n"

/-- The tree loads, and rendering it names the macro to which the use is passed. -/
theorem Document.load_uses_declared_forwarded :
    ∃ document root, ofText .yaml forwardedUse = .ok document ∧ load .yaml forwardedUse = .ok root ∧
      (Registry.builtin.render defaultDepthLimit root).result =
        .error (.expansionFailed "forward" (.load (.unknownMacro "missing"))) ∧
      document.FailsFor root "forward" "missing" := by
  have hrun : (load .yaml forwardedUse).toOption.map (fun root =>
      (Registry.builtin.render defaultDepthLimit root).result) =
      some (.error (.expansionFailed "forward" (.load (.unknownMacro "missing")))) := by decide +kernel
  cases hload : load .yaml forwardedUse with
  | error error =>
    rw [hload] at hrun
    cases hrun
  | ok root =>
    rw [hload] at hrun
    have hrender : (Registry.builtin.render defaultDepthLimit root).result =
        .error (.expansionFailed "forward" (.load (.unknownMacro "missing"))) := Option.some.inj hrun
    rcases Run.bind_eq_ok_iff.1 hload with ⟨document, hdocument, -⟩
    rcases load_uses_declared hdocument with ⟨htrees, -⟩
    rcases htrees root hload with ⟨-, hrendered⟩
    rcases hrendered _ _ hrender with ⟨-, -, hnames⟩
    exact ⟨document, root, hdocument, rfl, hrender, hnames _ _ rfl⟩

end Loading

end PipelineTree
