/-!
# Fault — what can be wrong with an authored tree, and where

A place in a document is the name of what is being read followed by steps into it.  A fault at a place
is reported as the place, a colon and what is wrong there.
-/

namespace PipelineTree

/-- One step into a document. -/
inductive Address.Step where
  | index (i : Nat)
  | key (name : String)
  deriving DecidableEq, Repr

/-- A place in a document: where reading starts, and the steps from there, the last one first. -/
structure Address where
  origin : String
  steps : List Address.Step
  deriving DecidableEq, Repr

namespace Address

def start (origin : String) : Address := ⟨origin, []⟩

def push (a : Address) (s : Step) : Address := ⟨a.origin, s :: a.steps⟩

def item (a : Address) (i : Nat) : Address := a.push (.index i)

def key (a : Address) (name : String) : Address := a.push (.key name)

def text (a : Address) : String :=
  a.steps.foldr (fun s before => match s with
    | .index i => before ++ s!"[{i}]"
    | .key name => before ++ "." ++ name) a.origin

end Address

/-- What is wrong at a place.  A found sort is worded as in `Value.sort`. -/
inductive Fault where
  | notSlot (found : String)
  | notSingleKey
  | kindNotText
  | unknownKind (name : String) (known : List String)
  | notProperties (found : String)
  | propertyNotText
  | strayKey (name : String)
  | useNotText
  | withNotMapping (found : String)
  deriving DecidableEq, Repr

namespace Fault

def text : Fault → String
  | .notSlot found => s!"expected a node, a sequence or null, found {found}"
  | .notSingleKey => "a node is a mapping with exactly one key"
  | .kindNotText => "node kind must be a string"
  | .unknownKind name _ => s!"unknown node kind '{name}'"
  | .notProperties found => s!"expected properties, found {found}"
  | .propertyNotText => "property names must be strings"
  | .strayKey name => s!"unexpected key '{name}' next to 'use'"
  | .useNotText => "'use' must name a macro"
  | .withNotMapping found => s!"'with' must be a mapping, found {found}"

def help? : Fault → Option String
  | .notSingleKey => some "Write nodes as '- github.step: \x7b run: ... \x7d'"
  | .unknownKind _ known =>
    some ("Known kinds: " ++ String.intercalate ", " ("group" :: "use" :: known))
  | _ => none

end Fault

/-- How the shape of a document fails to be a tree. -/
inductive ShapeError where
  | misplaced (place : Address) (fault : Fault)
  | emptyRoot
  | severalRoots (count : Nat)
  deriving DecidableEq, Repr

namespace ShapeError

def reason : ShapeError → String
  | .misplaced place fault => place.text ++ ": " ++ fault.text
  | .emptyRoot => "root is empty"
  | .severalRoots count => s!"root must be a single node, found {count}"

def help? : ShapeError → Option String
  | .misplaced _ fault => fault.help?
  | .emptyRoot => some "Set 'root' to a 'github.workflow' or 'azure.pipeline' node"
  | .severalRoots _ => none

end ShapeError

/-- Why a tree was refused. -/
inductive LoadError where
  | invalid (error : ShapeError)
  | unknownMacro (name : String)
  deriving DecidableEq, Repr

def LoadError.message : LoadError → String
  | .invalid error => s!"Invalid tree: {error.reason}"
  | .unknownMacro name => s!"Unknown macro '{name}'"

end PipelineTree
