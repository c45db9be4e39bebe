import PipelineTree.Error.Basic

/-!
# Recovery — what to do about an error

Some errors come with a suggestion: what to do, in which steps, and with which commands.
-/

namespace PipelineTree

/-- A suggestion for getting past an error. -/
structure Recovery where
  action : String
  steps : List String
  commands : List String
  deriving DecidableEq, Repr

namespace Recovery

def missingInputs (pattern : String) : Recovery where
  action := s!"Add files matching pattern '{pattern}'"
  steps :=
    [ "Patterns are resolved relative to the working directory",
      "Either create the files or update the pattern" ]
  commands := [ "# List files that would match:", "ls -la " ++ pattern.replace "*" "\\*" ]

def supportedRoot (kind : String) : Recovery where
  action := s!"Replace root kind '{kind}'"
  steps :=
    [ "The document root must be a platform root node",
      "Use 'github.workflow' or 'azure.pipeline'" ]
  commands := [ "# Show registered platforms:", "pipeweave platforms" ]

/-- The depth limit to try after `limit` was too small. -/
def nextLimit (limit : Nat) : Nat := limit * 2

def macroCycle (rule : String) (limit : Nat) : Recovery where
  action := s!"Check macro '{rule}' for self-reference"
  steps :=
    [ s!"Expansion went deeper than {limit} levels",
      "A macro whose body uses itself never reaches a job or step" ]
  commands :=
    [ "# Only if the nesting is intentional:",
      s!"pipeweave generate --max-depth {nextLimit limit} <INPUT>" ]

def stepBehavior : Recovery where
  action := "Give the step exactly one behavior"
  steps :=
    [ "GitHub steps set either 'uses' or 'run'",
      "Azure steps set either 'task' or 'script'",
      "Set 'disabled: true' to drop a step without removing it" ]
  commands := []

/-- The suggestion for an error, if there is a useful one. -/
def ofError? : Error → Option Recovery
  | .noInputFiles pattern => some (missingInputs pattern)
  | .noRenderer _ kind => some (supportedRoot kind)
  | .depthExceeded limit rule => some (macroCycle rule limit)
  | .validation entity _ => if entity.startsWith "step " then some stepBehavior else none
  | _ => none

def text (r : Recovery) : String :=
  let indented := fun (lines : List String) => String.join (lines.map fun l => "  " ++ l ++ "\n")
  "→ " ++ r.action ++ "\n" ++ indented r.steps ++
    (if r.commands.isEmpty then "" else "\n" ++ indented r.commands)

end Recovery

end PipelineTree
