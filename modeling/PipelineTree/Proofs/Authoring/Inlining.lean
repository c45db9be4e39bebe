import PipelineTree.Authoring.Document
import PipelineTree.Proofs.Authoring.Position
import PipelineTree.Proofs.Platform.Inlining

/-!
# Inlining — the use of a macro or a group of its body

Wherever a document uses a macro below its root node, the use can be replaced by a group that holds the
body of the macro with its parameters filled in.  `Document.render_inlined` says that the document still
loads then, and is rendered as before under every depth limit.
-/

namespace PipelineTree

namespace Authoring

variable {templates : Templates} {name : String} {template : Template} {arguments : Props}
  {body : Value} {nodes : List (Node TemplateUse)}

theorem invoke_of_denotes (htemplate : templates.lookup name = some template)
    (hbody : Substitution.substitute (Entries.overlay template.params arguments) template.body =
      .ok body) (hnodes : Denotes templates body nodes) :
    ∃ slot, ExpansionRule.invoke (⟨name, templates⟩ : TemplateUse) arguments = .ok slot ∧
      slot.nodes = nodes := by
  rcases hnodes.readsAs.slot (.start s!"macro '{name}'") with ⟨slot, hslot, rfl⟩
  refine ⟨slot, ?_, rfl⟩
  -- The rule reads the body at a place of its own, which makes no difference to the nodes.
  have hinvoke : TemplateUse.invoke ⟨name, templates⟩ arguments = .ok slot := by
    simp only [TemplateUse.invoke, htemplate, hbody, Run.ok_bind, hslot]
    rfl
  exact hinvoke

/-- The use of a macro can be replaced by a group of its body. -/
theorem Replaces.inline {entries : Mapping} (huse : IsUse entries name arguments)
    (htemplate : templates.lookup name = some template)
    (hbody : Substitution.substitute (Entries.overlay template.params arguments) template.body =
      .ok body) (hnodes : Denotes templates body nodes) :
    Replaces templates Node.Inlines (.mapping entries) (.mapping [(.text "group", body)]) := by
  intro nodes' hnodes'
  have hdeclared : Entries.contains name templates = true := by
    rcases List.lookup_isSome_iff.1 (Option.isSome_of_eq_some htemplate) with ⟨entry, hentry, hname⟩
    exact List.any_eq_true.2 ⟨entry, hentry, beq_iff_eq.2 (beq_iff_eq.1 hname).symm⟩
  -- The use denotes one custom node, and the group one group of what the rule returns.
  cases hnodes'.unique (.use huse hdeclared)
  rcases invoke_of_denotes htemplate hbody hnodes with ⟨slot, hinvoke, rfl⟩
  exact ⟨_, .group rfl hnodes, .cons (.inline hinvoke) .nil⟩

end Authoring

theorem Document.tree_eq_ok_iff {document : Document} {root : Node TemplateUse} :
    document.tree = .ok root ↔ Authoring.Denotes document.templates document.root [root] := by
  rw [Document.tree, Run.bind_eq_ok_iff, Authoring.denotes_iff (.start "root")]
  refine exists_congr fun slot => and_congr_right ?_
  intro _
  split <;> simp_all [pure, Except.pure]

open Authoring

/--
The use of a macro below the root node can be replaced by a group of the body it stands for: the document
still loads, and is rendered as before, but for the rule that is named at the depth limit.
-/
theorem Document.render_inlined {document : Document} {position : ChildPosition} {entries : Mapping}
    {name : String} {arguments : Props} {template : Template} {body : Value} {place : Address}
    {slot : Slot TemplateUse} {root : Node TemplateUse} (hbelow : position.BelowNode)
    (hroot : document.root = position.fill (.mapping entries))
    (huse : IsUse entries name arguments)
    (htemplate : document.templates.lookup name = some template)
    (hbody : Substitution.substitute (Entries.overlay template.params arguments) template.body =
      .ok body)
    (hslot : readSlot document.templates place body = .ok slot) (htree : document.tree = .ok root) :
    ∃ inlined,
      Document.tree ⟨document.templates, position.fill (.mapping [(.text "group", body)])⟩ =
        .ok inlined ∧
      ∀ limit, (Registry.builtin.render limit inlined).result.mapError Error.withoutRule =
        (Registry.builtin.render limit root).result.mapError Error.withoutRule := by
  have hinline := Replaces.inline huse htemplate hbody (denotes_of_readSlot hslot)
  have hnodes := Document.tree_eq_ok_iff.1 htree
  rw [hroot] at hnodes
  have hcongruence : IsCongruence Node.Inlines :=
    ⟨Node.Inlines.refl, .group, fun kind props hchildren => .primitive kind props hchildren⟩
  rcases hinline.fill_below hcongruence hbelow _ hnodes with ⟨nodes', hnodes', hpair⟩
  rcases List.forall₂_cons_left_iff.1 hpair with ⟨inlined, _, ⟨hinlines, hname⟩, hnil, rfl⟩
  cases hnil
  exact ⟨inlined, Document.tree_eq_ok_iff.2 hnodes', hinlines.render hname⟩

/-- A job of a workflow, as a place for its children. -/
def childrenOfJob : ChildPosition :=
  .children (.text "github.workflow") .githubWorkflow rfl [(.text "name", .text "CI")]
    (.text "children") rfl
    (.item [.null]
      (.children (.text "github.job") .githubJob rfl [] (.text "children") rfl (.item [] .hole [])
        [(.text "id", .text "lint")] (by simp [Value.text?, Value.untagged]))
      [])
    [] (by simp)

/-- One step that runs a command. -/
def stepOf (command : String) : Value :=
  .mapping [(.text "github.step", .mapping [(.text "run", .text command)])]

/-- A macro whose body is a step, with a default for its command. -/
def cargoTemplate : Template :=
  ⟨[("command", .text "test")], stepOf "$\x7b\x7b params.command \x7d\x7d"⟩

/-- The use of the macro for another command. -/
def clippyUse : Mapping :=
  [(.text "use", .text "cargo"), (.text "with", .mapping [(.text "command", .text "clippy")])]

theorem isUse_clippyUse : IsUse clippyUse "cargo" [("command", .text "clippy")] := by
  have hnamed : Named [(.text "command", .text "clippy")] [("command", .text "clippy")] :=
    .cons ⟨rfl, rfl⟩ .nil
  refine ⟨rfl, .mapping hnamed, ?_⟩
  simp [clippyUse, Value.text?, Value.untagged]

theorem substitute_clippy :
    Substitution.substitute (Entries.overlay cargoTemplate.params [("command", .text "clippy")])
      cargoTemplate.body = .ok (stepOf "clippy") := by
  simp [cargoTemplate, stepOf, Substitution.substitute, Substitution.substituteEntries,
    Substitution.substituteKey, Substitution.interpolate_of_not_mem]
  rfl

theorem Document.render_inlined_clippy :
    ∃ root inlined,
      Document.tree ⟨[("cargo", cargoTemplate)], childrenOfJob.fill (.mapping clippyUse)⟩ = .ok root ∧
      Document.tree ⟨[("cargo", cargoTemplate)],
        childrenOfJob.fill (.mapping [(.text "group", stepOf "clippy")])⟩ = .ok inlined ∧
      ∀ limit, (Registry.builtin.render limit inlined).result.mapError Error.withoutRule =
        (Registry.builtin.render limit root).result.mapError Error.withoutRule := by
  have hbelow : childrenOfJob.BelowNode := trivial
  have htree : ∃ root,
      Document.tree ⟨[("cargo", cargoTemplate)], childrenOfJob.fill (.mapping clippyUse)⟩ = .ok root :=
    ⟨_, rfl⟩
  have htemplate : [("cargo", cargoTemplate)].lookup "cargo" = some cargoTemplate := rfl
  have hslot : ∃ slot,
      readSlot [("cargo", cargoTemplate)] (.start "body") (stepOf "clippy") = .ok slot := ⟨_, rfl⟩
  rcases htree with ⟨root, htree⟩
  rcases hslot with ⟨slot, hslot⟩
  rcases Document.render_inlined hbelow rfl isUse_clippyUse htemplate substitute_clippy hslot htree
    with ⟨inlined, hinlined, hrender⟩
  exact ⟨root, inlined, htree, hinlined, hrender⟩

end PipelineTree
