import PipelineTree.Proofs.Authoring.Denotation
import PipelineTree.Proofs.Expansion.Recursion
import PipelineTree.Proofs.Template.Filling
import PipelineTree.Proofs.Value.Entries
import PipelineTree.Proofs.Value.Pairing

/-!
# Cycle — macros that use each other in a circle

The body of a macro calls another macro if it holds a use of it that does not depend on the arguments: one below
sequences and groups, with the name written out.  Filling in parameters leaves such a use in its place, whatever
becomes of its arguments (`Value.Calls.filled`), and a reader who can read the filled body finds it there
(`Value.Calls.denotes`).  So macros that call each other in a circle recur, and no limit on the depth is high
enough to expand one of them (`Templates.expand_cycle`).
-/

namespace PipelineTree

open Placeholder Substitution

/-! ## Calls -/

/-- The value is no text with a placeholder in it. -/
def Value.IsPlain (value : Value) : Prop :=
  ∀ s, value = .text s → ∀ name, ¬Occurs name s.toList

theorem Value.isPlain_text {s : String} (h : '$' ∉ s.toList) : (Value.text s).IsPlain := by
  rintro _ ⟨⟩ name hoccurs
  exact h hoccurs.mem_dollar

/-- Entries whose keys differ, and keep their keys when parameters are filled in. -/
structure Mapping.Steady (entries : Mapping) : Prop where
  distinct : Entries.Distinct entries
  plain : ∀ entry ∈ entries, entry.1.IsPlain

theorem Mapping.steady_of_texts {entries : Mapping} (hdistinct : Entries.Distinct entries)
    (htexts : ∀ entry ∈ entries, ∃ s, entry.1 = .text s ∧ '$' ∉ s.toList) : entries.Steady := by
  refine ⟨hdistinct, ?_⟩
  intro entry hentry
  rcases htexts entry hentry with ⟨s, hs, hplain⟩
  exact hs ▸ Value.isPlain_text hplain

/-- A use of a macro, with its name written out, stands in a value below sequences and groups at most. -/
inductive Value.Calls : Value → String → Prop where
  | item {items : List Value} {item : Value} {name : String} :
      item ∈ items → Calls item name → Calls (.sequence items) name
  | group {entries : Mapping} {key body : Value} {name : String} :
      entries.Steady → (key, body) ∈ entries → key.text? = some "group" → Calls body name →
        Calls (.mapping entries) name
  | use {entries : Mapping} {value : Value} {name : String} :
      entries.Steady → (.text "use", value) ∈ entries → value.IsPlain → value.text? = some name →
        Calls (.mapping entries) name

theorem Value.calls_text {entries : Mapping} {name : String} (hsteady : entries.Steady)
    (hmem : (.text "use", .text name) ∈ entries) (hplain : '$' ∉ name.toList) :
    (Value.mapping entries).Calls name := .use hsteady hmem (Value.isPlain_text hplain) rfl

/-- The body of a declared macro calls a macro. -/
def Templates.Calls (templates : Templates) (name next : String) : Prop :=
  ∃ template, templates.lookup name = some template ∧ template.body.Calls next

/-- Each macro calls the one behind it, and the last one calls the first. -/
def Templates.IsCycle (templates : Templates) (first : String) (others : List String) : Prop :=
  List.Forall₂ templates.Calls (first :: others) (others ++ [first])

/-! ## Filling in parameters -/

section Filling

variable {params : Props} {gather : Mapping → Mapping} {value result : Value} {name : String}

namespace Substitution

/-- Nothing is filled in where there is no placeholder. -/
theorem FilledText.eq_of_plain {text back : List Char} (h : FilledText params text back)
    (hplain : ∀ name, ¬Occurs name text) : back = text := by
  induction h with
  | nil => rfl
  | placeholder hwritten => exact absurd ⟨[], _, _, hwritten, rfl⟩ (hplain _)
  | @char c rest _ _ _ ih =>
    have hrest : ∀ name, ¬Occurs name rest := by
      rintro name ⟨before, placeholder, after, hwritten, rfl⟩
      exact hplain name ⟨c :: before, placeholder, after, hwritten, rfl⟩
    simp [ih hrest]

theorem FilledKey.eq_of_isPlain (h : FilledKey params value result) (hplain : value.IsPlain) :
    result = value := by
  cases h with
  | text htext => rw [String.toList_inj.1 (htext.eq_of_plain (hplain _ rfl))]
  | other => rfl

/-- A text without placeholders is left as it is, and under a tag so is every text. -/
theorem Filled.eq_of_isPlain (h : Filled params gather value result) (hplain : value.IsPlain)
    (htext : value.text? = some name) : result = value := by
  cases h with
  | whole hwhole => exact absurd (hwhole.occurs_iff.2 rfl) (hplain _ rfl _)
  | woven _ hwoven => rw [String.toList_inj.1 (hwoven.eq_of_plain (hplain _ rfl))]
  | tagged => rfl
  | sequence | mapping | null | bool | number => cases htext

end Substitution

theorem Mapping.Steady.keys {entries others : Mapping} (h : entries.Steady)
    (hentries : List.Forall₂ (FilledEntry params gather) entries others) :
    others.map Prod.fst = entries.map Prod.fst := by
  have hkeys : List.Forall₂ (fun e f : Value × Value => f.1 = e.1) entries others := by
    refine forall₂_of_mem hentries ?_
    rintro _ hmem _ ⟨hkey, -⟩
    exact hkey.eq_of_isPlain (h.plain _ hmem)
  rw [← List.forall₂_eq_eq_eq, List.forall₂_map_left_iff, List.forall₂_map_right_iff]
  exact hkeys.flip

/-- Entries that keep their keys stay apart, and each of them is filled where it stands. -/
theorem Mapping.Steady.filled {entries : Mapping} (h : entries.Steady)
    (hfilled : Filled params Entries.ofList (.mapping entries) result) :
    ∃ others : Mapping, result = .mapping others ∧ others.Steady ∧
      ∀ key value, (key, value) ∈ entries →
        ∃ value', (key, value') ∈ others ∧ Filled params Entries.ofList value value' := by
  rcases filled_mapping_iff.1 hfilled with ⟨others, hentries, rfl⟩
  have hkeys := h.keys hentries
  have hapart : (entries.map Prod.fst).Pairwise fun k l => (k == l) = false :=
    List.pairwise_map.2 h.distinct
  have hdistinct : others.Pairwise fun e f => (e.1 == f.1) = false :=
    List.pairwise_map.1 (hkeys ▸ hapart)
  refine ⟨others, by rw [Entries.ofList_eq_self hdistinct], ⟨hdistinct, ?_⟩, ?_⟩
  · intro other hother
    have hkey : other.1 ∈ entries.map Prod.fst := hkeys ▸ List.mem_map_of_mem hother
    rcases List.mem_map.1 hkey with ⟨entry, hentry, heq⟩
    exact heq ▸ h.plain entry hentry
  · intro key value hmem
    rcases exists_of_mem_left hentries hmem with ⟨⟨key', value'⟩, hother, ⟨hkey, hvalue⟩⟩
    have hsame : key' = key := hkey.eq_of_isPlain (h.plain _ hmem)
    exact ⟨value', hsame ▸ hother, hvalue⟩

/-- Filling in parameters leaves the call of a macro in its place. -/
theorem Value.Calls.filled (h : value.Calls name)
    (hfilled : Filled params Entries.ofList value result) : result.Calls name := by
  induction h generalizing result with
  | item hmem _ ih =>
    rcases filled_sequence_iff.1 hfilled with ⟨others, hitems, rfl⟩
    rcases exists_of_mem_left hitems hmem with ⟨other, hother, hitem⟩
    exact .item hother (ih hitem)
  | group hsteady hmem hkey _ ih =>
    rcases hsteady.filled hfilled with ⟨others, rfl, hothers, hvalues⟩
    rcases hvalues _ _ hmem with ⟨body, hbody, hbodyFilled⟩
    exact .group hothers hbody hkey (ih hbodyFilled)
  | use hsteady hmem hplain htext =>
    rcases hsteady.filled hfilled with ⟨others, rfl, hothers, hvalues⟩
    rcases hvalues _ _ hmem with ⟨value, hvalue, hvalueFilled⟩
    cases hvalueFilled.eq_of_isPlain hplain htext
    exact .use hothers hvalue hplain htext

end Filling

/-! ## Reading the filled body -/

section Reading

variable {templates : Templates} {value : Value} {nodes : List (Node TemplateUse)} {name : String}

/-- A mapping with a key `use` denotes a custom node, if it denotes nodes. -/
theorem Authoring.Denotes.of_use {entries : Mapping}
    (h : Denotes templates (.mapping entries) nodes) (hmem : (.text "use", value) ∈ entries) :
    ∃ other arguments, IsUse entries other arguments ∧
      nodes = [.custom ⟨other, templates⟩ arguments] := by
  have hkey : (Value.text "use").text? = some "use" := rfl
  cases h with
  | group hgroup =>
    cases List.mem_singleton.1 hmem
    simp [hkey] at hgroup
  | @bare _ kind hkind | @primitive _ _ kind _ _ _ hkind =>
    cases List.mem_singleton.1 hmem
    exact absurd (Option.some.inj (hkind.symm.trans hkey)) kind.name_ne_use
  | use huse => exact ⟨_, _, huse, rfl⟩

/-- Where a value that calls a macro can be read, a custom node for this macro is found. -/
theorem Value.Calls.denotes (h : value.Calls name) (hnodes : Authoring.Denotes templates value nodes) :
    ∃ node ∈ nodes, node.Invokes (· = (⟨name, templates⟩ : TemplateUse)) := by
  induction h generalizing nodes with
  | item hmem _ ih =>
    rcases hnodes.of_item hmem with ⟨part, hpart, hsubset⟩
    rcases ih hpart with ⟨node, hnode, hinvokes⟩
    exact ⟨node, hsubset hnode, hinvokes⟩
  | group _ hmem hkey _ ih =>
    rcases hnodes.of_group hmem hkey with ⟨inner, hinner, rfl⟩
    rcases ih hinner with ⟨node, hnode, hinvokes⟩
    exact ⟨.group inner, List.mem_singleton_self _, .group hnode hinvokes⟩
  | use hsteady hmem _ htext =>
    rcases hnodes.of_use hmem with ⟨other, arguments, huse, rfl⟩
    -- The keys differ, so the entry that calls the macro is the one that is read.
    have hname := huse.use
    rw [Entries.lookup_text_of_mem hsteady.distinct hmem, Option.bind_some, htext] at hname
    cases hname
    exact ⟨_, List.mem_singleton_self _, .custom arguments rfl⟩

end Reading

/-! ## Cycles -/

variable {templates : Templates}

/-- What a use stands for is read from the body of its macro, once that is filled. -/
theorem TemplateUse.of_invoke {use : TemplateUse} {arguments : Props} {slot : Slot TemplateUse}
    (h : use.invoke arguments = .ok slot) :
    ∃ template body, use.templates.lookup use.name = some template ∧
      Filled (Entries.overlay template.params arguments) Entries.ofList template.body body ∧
      Authoring.Denotes use.templates body slot.nodes := by
  rw [TemplateUse.invoke] at h
  split at h
  · cases h
  · rename_i template hdeclared
    rcases Run.bind_eq_ok_iff.1 h with ⟨body, hbody, hread⟩
    split at hread
    · rename_i found hfound
      cases hread
      exact ⟨template, body, hdeclared, substitute_eq_ok_iff.1 hbody,
        Authoring.denotes_of_readSlot hfound⟩
    · cases hread

/-- Macros each of which calls one of them again recur. -/
theorem Templates.recur {names : List String}
    (h : ∀ name ∈ names, ∃ next ∈ names, templates.Calls name next) :
    Recur fun use : TemplateUse => use.templates = templates ∧ use.name ∈ names := by
  rintro ⟨name, _⟩ ⟨rfl, hname⟩ arguments slot hinvoke
  rcases h name hname with ⟨next, hnext, template, hdeclared, hcalls⟩
  rcases TemplateUse.of_invoke hinvoke with ⟨other, body, hother, hbody, hnodes⟩
  cases hdeclared.symm.trans hother
  rcases (hcalls.filled hbody).denotes hnodes with ⟨node, hnode, hinvokes⟩
  exact ⟨node, hnode, hinvokes.mono fun use huse => huse ▸ ⟨rfl, hnext⟩⟩

/--
The use of a macro that is part of a cycle cannot be expanded, whatever its arguments are and whatever the
limit is: expansion ends with an error, which is the depth limit or the failure of a rule before that.
-/
theorem Templates.expand_cycle {first : String} {others : List String}
    (hcycle : templates.IsCycle first others) (limit : Nat) (arguments : Props) :
    ∃ error, ((Node.custom (⟨first, templates⟩ : TemplateUse) arguments).expand limit).result =
      .error error ∧ error.OfExpansion limit := by
  have hcalls : ∀ name ∈ first :: others, ∃ next ∈ first :: others, templates.Calls name next := by
    intro name hname
    rcases exists_of_mem_left hcycle hname with ⟨next, hnext, hcall⟩
    exact ⟨next, by simpa [or_comm] using hnext, hcall⟩
  have huse : (Node.custom (⟨first, templates⟩ : TemplateUse) arguments).Invokes
      fun use => use.templates = templates ∧ use.name ∈ first :: others :=
    .custom arguments ⟨rfl, List.mem_cons_self⟩
  exact Node.expand_of_invokes (Templates.recur hcalls) huse limit

/-- Two macros that use each other: the one in a group, with an argument of its own, and the other at the top. -/
def echoTemplates : Templates :=
  [("ping", ⟨[("count", .number (.int 1))],
      .sequence [.null, .mapping [(.text "group", .sequence
        [.mapping [(.text "use", .text "pong"),
          (.text "with", .mapping [(.text "count", .text "$\x7b\x7b params.count \x7d\x7d")])]])]]⟩),
    ("pong", ⟨[], .mapping [(.text "use", .text "ping")]⟩)]

theorem isCycle_echoTemplates : echoTemplates.IsCycle "ping" ["pong"] := by
  have hping : echoTemplates.Calls "ping" "pong" := by
    refine ⟨_, rfl, .item (List.mem_cons_of_mem _ List.mem_cons_self) ?_⟩
    refine .group (Mapping.steady_of_texts ?_ ?_) List.mem_cons_self rfl (.item List.mem_cons_self ?_)
    · simp [Entries.Distinct]
    · simp
    · refine Value.calls_text (Mapping.steady_of_texts ?_ ?_) List.mem_cons_self (by decide)
      · simp [Entries.Distinct]
      · simp
  have hpong : echoTemplates.Calls "pong" "ping" := by
    refine ⟨_, rfl, Value.calls_text (Mapping.steady_of_texts ?_ ?_) List.mem_cons_self (by decide)⟩
    · simp [Entries.Distinct]
    · simp
  exact .cons hping (.cons hpong .nil)

/-- Twenty levels are not enough for them. -/
theorem Templates.expand_cycle_echo :
    echoTemplates.IsCycle "ping" ["pong"] ∧
      ∃ error, ((Node.custom (⟨"ping", echoTemplates⟩ : TemplateUse)
          [("count", .number (.int 2))]).expand 20).result = .error error ∧
        error.OfExpansion 20 :=
  ⟨isCycle_echoTemplates, Templates.expand_cycle isCycle_echoTemplates 20 _⟩

end PipelineTree
