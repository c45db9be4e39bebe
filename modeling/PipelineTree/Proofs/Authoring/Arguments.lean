import PipelineTree.Proofs.Authoring.Grammar
import PipelineTree.Proofs.Template.Dependence
import PipelineTree.Proofs.Template.Whole

/-!
# Arguments — what the arguments of a macro decide

The arguments of a use are laid over the defaults of the macro, and what results is filled into the body, which
is then read.  So the use stands for the same nodes, or fails alike, under any arguments that leave the body's
own parameters with the same values (`TemplateUse.invoke_determined`).  What is read then may hold nodes that
came in as arguments; they too are the same, for the filled body is.
-/

namespace PipelineTree

open Placeholder Substitution

/-! ## Arguments over defaults -/

namespace Props

variable {defaults arguments others : Props} {name : String} {value : Value}

theorem NamesDistinct.perm (h : arguments.NamesDistinct) (hperm : arguments.Perm others) :
    others.NamesDistinct := (hperm.map Prod.fst).nodup_iff.1 h

/-- Where names are distinct, it makes no difference in which order they stand. -/
theorem NamesDistinct.lookup_perm (h : arguments.NamesDistinct) (hperm : arguments.Perm others) :
    arguments.lookup name = others.lookup name := by
  ext value
  calc
    arguments.lookup name = some value ↔ (name, value) ∈ arguments := Authoring.lookup_eq_some_iff h
    _ ↔ (name, value) ∈ others := hperm.mem_iff
    _ ↔ others.lookup name = some value := (Authoring.lookup_eq_some_iff (h.perm hperm)).symm

/-- An argument is used where there is one, and the default where there is none. -/
theorem NamesDistinct.lookup_overlay (h : arguments.NamesDistinct) (defaults : Props)
    (name : String) :
    (Entries.overlay defaults arguments).lookup name =
      (arguments.lookup name).or (defaults.lookup name) := by
  rw [Entries.lookup_overlay, ← h.lookup_perm (List.reverse_perm arguments).symm]

theorem NamesDistinct.bindAlike_perm (h : arguments.NamesDistinct) (hperm : arguments.Perm others)
    (defaults : Props) (names : String → Prop) :
    BindAlike names (Entries.overlay defaults arguments) (Entries.overlay defaults others) := by
  intro name _
  rw [h.lookup_overlay, (h.perm hperm).lookup_overlay, h.lookup_perm hperm]

/-- Arguments whose names do not matter can be left out. -/
theorem bindAlike_filter {names : String → Prop} {kept : String → Bool}
    (hkept : ∀ name, names name → kept name = true) (defaults arguments : Props) :
    BindAlike names (Entries.overlay defaults (arguments.filter fun argument => kept argument.1))
      (Entries.overlay defaults arguments) := by
  intro name hname
  rw [Entries.lookup_overlay, Entries.lookup_overlay, ← List.filter_reverse,
    Entries.lookup_filter (hkept name hname)]

end Props

/-! ## Uses -/

variable {use : TemplateUse} {template : Template}

theorem TemplateUse.invoke_congr (hdeclared : use.templates.lookup use.name = some template)
    {arguments others : Props}
    (h : Props.BindAlike (Reads template.body) (Entries.overlay template.params arguments)
      (Entries.overlay template.params others)) : use.invoke arguments = use.invoke others := by
  have hbody := substitute_congr h
  simp [TemplateUse.invoke, hdeclared, hbody]

/--
What the use of a macro stands for, and whether and how it fails, is decided by the values that the parameters
read in its body have once the arguments are laid over the defaults.  So the order of arguments makes no
difference, and arguments for parameters that are not read, declared or not, can be left out.  For those that
are read, an argument takes the place of the default whatever its value is, even if it is null.
-/
theorem TemplateUse.invoke_determined (hdeclared : use.templates.lookup use.name = some template) :
    (∀ arguments others,
      Props.BindAlike (Reads template.body) (Entries.overlay template.params arguments)
        (Entries.overlay template.params others) →
      use.invoke arguments = use.invoke others) ∧
    (∀ arguments others : Props, arguments.NamesDistinct → arguments.Perm others →
      use.invoke arguments = use.invoke others) ∧
    (∀ (arguments : Props) (kept : String → Bool),
      (∀ name, Reads template.body name → kept name = true) →
      use.invoke (arguments.filter fun argument => kept argument.1) = use.invoke arguments) ∧
    ∀ arguments : Props, arguments.NamesDistinct → ∀ name value, (name, value) ∈ arguments →
      (Entries.overlay template.params arguments).lookup name = some value ∧
      ∀ s, IsWhole name s.toList →
        substitute (Entries.overlay template.params arguments) (.text s) = .ok value := by
  refine ⟨fun _ _ => TemplateUse.invoke_congr hdeclared, ?_, ?_, ?_⟩
  · intro arguments others hdistinct hperm
    exact TemplateUse.invoke_congr hdeclared (hdistinct.bindAlike_perm hperm _ _)
  · intro arguments kept hkept
    exact TemplateUse.invoke_congr hdeclared (Props.bindAlike_filter hkept _ arguments)
  · intro arguments hdistinct name value hmem
    have hbound : (Entries.overlay template.params arguments).lookup name = some value := by
      simp [hdistinct.lookup_overlay, (Authoring.lookup_eq_some_iff hdistinct).2 hmem]
    refine ⟨hbound, ?_⟩
    intro s hwhole
    exact (substituteText_of_isWhole hwhole).trans (parameter_eq_ok_iff.2 hbound)

/-- A macro for a step that may take some minutes, ten unless others are given. -/
def timedTemplate : Template :=
  ⟨[("minutes", .number (.int 10))],
    .mapping [(.text "github.step", .mapping [(.text "timeout-minutes", .text minutes)])]⟩

def timedUse : TemplateUse := ⟨"timed", [("timed", timedTemplate)]⟩

theorem isWhole_minutes : IsWhole "minutes" minutes.toList :=
  ⟨[], minutes.toList, [], by simp [AllBlank], by simp [AllBlank], isWritten_minutes, by simp⟩

theorem reads_timedTemplate_iff {name : String} :
    Reads timedTemplate.body name ↔ name = "minutes" := by
  have hkeys : ∀ text : List Char, '$' ∉ text → ¬Occurs name text :=
    fun text hplain => mt Occurs.mem_dollar hplain
  have hvalue : Occurs name minutes.toList ↔ name = "minutes" := isWhole_minutes.occurs_iff
  simp [timedTemplate, reads_mapping_iff, reads_text_iff, hkeys, hvalue]

/-- With null for the minutes, whatever is given besides, the step has no default any more. -/
theorem TemplateUse.invoke_determined_timed :
    timedUse.templates.lookup timedUse.name = some timedTemplate ∧
      (∀ name, Reads timedTemplate.body name → (name == "minutes") = true) ∧
      timedUse.invoke [("shell", .text "bash"), ("minutes", .null)] =
        timedUse.invoke [("minutes", .null), ("shell", .text "bash")] ∧
      timedUse.invoke [("minutes", .null), ("shell", .text "bash")] =
        timedUse.invoke [("minutes", .null)] ∧
      timedUse.invoke [("minutes", .null)] =
        .ok (.one (.primitive .githubStep [("timeout-minutes", .null)] [])) := by
  have hdeclared : timedUse.templates.lookup timedUse.name = some timedTemplate := rfl
  have hreads : ∀ name, Reads timedTemplate.body name → (name == "minutes") = true := by
    intro name hname
    simpa using reads_timedTemplate_iff.1 hname
  rcases TemplateUse.invoke_determined hdeclared with ⟨-, horder, hkept, hgiven⟩
  have hnull := (hgiven [("minutes", .null)] (by decide) "minutes" .null (by simp)).2 _ isWhole_minutes
  refine ⟨hdeclared, hreads, horder _ _ (by decide) (.swap _ _ _), ?_, ?_⟩
  · exact (hkept [("minutes", .null), ("shell", .text "bash")] (· == "minutes") hreads).symm
  · have hkind := substituteKey_of_not_mem (Entries.overlay timedTemplate.params [("minutes", .null)])
      (show '$' ∉ "github.step".toList by decide)
    have hfield := substituteKey_of_not_mem
      (Entries.overlay timedTemplate.params [("minutes", .null)])
      (show '$' ∉ "timeout-minutes".toList by decide)
    rw [TemplateUse.invoke, hdeclared]
    simp only [timedTemplate, substitute, substituteEntries] at hnull hkind hfield ⊢
    simp only [hnull, hkind, hfield]
    rfl

end PipelineTree
