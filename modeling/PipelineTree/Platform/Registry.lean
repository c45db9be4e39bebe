import PipelineTree.Platform.Azure
import PipelineTree.Platform.Github
import PipelineTree.Yaml.Printer

/-!
# Registry — choosing the platform of a root

A registry is a list of platforms; the first one whose root kind is that of the tree's root writes its
document.  A root that no platform knows is an outcome of its own and not an error.
-/

namespace PipelineTree

variable {ρ : Type}

/-- The text of a root's document; `none` if there is nothing to write. -/
def Compiler.render (compiler : Compiler ρ) (limit : Nat) (root : Primitive ρ) :
    Run (Option String) := do
  match ← compiler.compile limit root with
  | none => pure none
  | some document =>
    let text ← Run.ofExcept (Yaml.print (compiler.renames.rename document))
    pure (some text)

/-- What rendering a root led to. -/
inductive Outcome where
  | rendered (platform extension text : String)
  /-- a platform knows the root, and there is nothing to write -/
  | empty
  | noRenderer (kind : String)
  deriving DecidableEq, Repr

/-- What a registry tells about a platform. -/
structure PlatformInfo where
  id : String
  rootKind : String
  extension : String
  description : String
  deriving DecidableEq, Repr

abbrev Registry (ρ : Type) := List (Compiler ρ)

namespace Registry

def builtin [ExpansionRule ρ] : Registry ρ := [Github.compiler, Azure.compiler]

def register (registry : Registry ρ) (compiler : Compiler ρ) : Registry ρ := registry ++ [compiler]

def forRoot? (registry : Registry ρ) (root : Node ρ) : Option (Compiler ρ) :=
  root.kind?.bind fun kind => registry.find? (·.rootKind == kind)

def withId? (registry : Registry ρ) (id : String) : Option (Compiler ρ) := registry.find? (·.id == id)

def describe (compiler : Compiler ρ) : PlatformInfo :=
  ⟨compiler.id, compiler.rootKind.name, compiler.extension, compiler.description⟩

/-- What is known of every platform, in order of registration. -/
def info (registry : Registry ρ) : List PlatformInfo := registry.map describe

def render [ExpansionRule ρ] (registry : Registry ρ) (limit : Nat) (root : Node ρ) : Run Outcome :=
  match registry.forRoot? root, root.primitive? with
  | some compiler, some primitive => do
    Run.report [.renderingRoot compiler.id]
    match ← compiler.render limit primitive with
    | some text => pure (.rendered compiler.id compiler.extension text)
    | none => pure .empty
  | _, _ => .done (.noRenderer root.kindName)

end Registry

end PipelineTree
