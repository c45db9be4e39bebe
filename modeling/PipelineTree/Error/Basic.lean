import PipelineTree.Authoring.Fault

/-!
# Error — everything that can go wrong, and how it is worded

An error names its cause; the message, the diagnostic code and the advice are functions of it.
-/

namespace PipelineTree

/-- Why the rule of a custom node failed. -/
inductive RuleError where
  | unknownParameter (name : String)
  | structuredInText
  | undeclaredMacro (name : String)
  | load (cause : LoadError)
  | custom (text : String)
  deriving DecidableEq, Repr

def RuleError.message : RuleError → String
  | .unknownParameter name => s!"unknown parameter '{name}'"
  | .structuredInText => "cannot interpolate a structured value into text"
  | .undeclaredMacro name => s!"macro '{name}' is not declared"
  | .load cause => cause.message
  | .custom text => text

/-- What is wrong with the fields of a record in a document. -/
inductive FieldFault where
  | missing (name : String)
  | unknown (name : String) (expected : List String)
  | duplicate (name : String)
  deriving DecidableEq, Repr

/-- The message of a field fault. Field names stand between grave accents. -/
def FieldFault.message : FieldFault → String
  | .missing name => "missing field " ++ quoted name
  | .duplicate name => "duplicate field " ++ quoted name
  | .unknown name expected =>
    "unknown field " ++ quoted name ++ ", expected " ++
      match expected with
      | [] => "no fields"
      | [a] => quoted a
      | [a, b] => quoted a ++ " or " ++ quoted b
      | more => "one of " ++ String.intercalate ", " (more.map quoted)
where
  quoted (name : String) : String := "\x60" ++ name ++ "\x60"

/-- Why a text could not be read as a document. -/
inductive ReadFault where
  /-- a record lacks a field or has one too many, at a place in the document -/
  | field (place : String) (fault : FieldFault)
  /-- anything else, in free wording -/
  | other (text : String)
  deriving DecidableEq, Repr

def ReadFault.message : ReadFault → String
  | .field place fault => if place.isEmpty then fault.message else place ++ ": " ++ fault.message
  | .other text => text

/-- Everything that can go wrong. -/
inductive Error where
  | validation (entity message : String)
  | expansionFailed (rule : String) (cause : RuleError)
  | depthExceeded (limit : Nat) (rule : String)
  | noRenderer (path kind : String)
  | noOutput (path : String)
  | invalidTree (reason : String) (help : Option String)
  | unknownMacro (name : String)
  | invalidConfig (path : String) (fault : ReadFault)
  | fileRead (path reason : String)
  | fileWrite (path reason : String)
  | noInputFiles (pattern : String)
  | batchFailed (failed total : Nat)
  | io (message : String)
  | yaml (fault : ReadFault)
  | json (fault : ReadFault)
  | globPattern (message : String)
  | watch (message : String)
  deriving DecidableEq, Repr

namespace Error

def ofLoad : LoadError → Error
  | .invalid error => .invalidTree error.reason error.help?
  | .unknownMacro name => .unknownMacro name

def message : Error → String
  | .validation entity message => s!"{entity}: {message}"
  | .expansionFailed rule cause => s!"Expansion rule '{rule}' failed: {cause.message}"
  | .depthExceeded limit rule =>
    s!"Expansion exceeded the depth limit of {limit} while expanding '{rule}'"
  | .noRenderer path kind => s!"No renderer recognizes root kind '{kind}' in {path}"
  | .noOutput path => s!"{path} produced no output"
  | .invalidTree reason _ => s!"Invalid tree: {reason}"
  | .unknownMacro name => s!"Unknown macro '{name}'"
  | .invalidConfig path fault => s!"Invalid configuration in {path}: {fault.message}"
  | .fileRead path reason => s!"Failed to read file '{path}': {reason}"
  | .fileWrite path reason => s!"Failed to write file '{path}': {reason}"
  | .noInputFiles pattern => s!"No input files matched pattern: {pattern}"
  | .batchFailed failed total => s!"{failed} of {total} input(s) failed to generate"
  | .io message => s!"IO error: {message}"
  | .yaml fault => s!"YAML error: {fault.message}"
  | .json fault => s!"JSON error: {fault.message}"
  | .globPattern message => s!"Glob pattern error: {message}"
  | .watch message => s!"Watch error: {message}"

def code : Error → String
  | .validation .. => "pipeweave::validation"
  | .expansionFailed .. => "pipeweave::expansion_failed"
  | .depthExceeded .. => "pipeweave::expansion_depth"
  | .noRenderer .. => "pipeweave::no_renderer"
  | .noOutput .. => "pipeweave::no_output"
  | .invalidTree .. => "pipeweave::invalid_tree"
  | .unknownMacro .. => "pipeweave::unknown_macro"
  | .invalidConfig .. => "pipeweave::invalid_config"
  | .fileRead .. => "pipeweave::file_read_error"
  | .fileWrite .. => "pipeweave::file_write_error"
  | .noInputFiles .. => "pipeweave::no_input_files"
  | .batchFailed .. => "pipeweave::batch_failed"
  | .io .. => "pipeweave::io_error"
  | .yaml .. => "pipeweave::yaml_error"
  | .json .. => "pipeweave::json_error"
  | .globPattern .. => "pipeweave::glob_error"
  | .watch .. => "pipeweave::watch_error"

/-- The advice that belongs to an error, where there is some. -/
def help? : Error → Option String
  | .expansionFailed rule _ =>
    some s!"The error was raised by the rule itself; check the properties passed to '{rule}'"
  | .depthExceeded .. =>
    some "A macro probably expands into itself. Raise --max-depth only for deliberate nesting"
  | .noRenderer .. => some "Run 'pipeweave platforms' to list the supported root kinds"
  | .noOutput .. => some "The root has no children, or none of them is a job, stage or step"
  | .invalidTree _ help => help
  | .unknownMacro name => some s!"Declare '{name}' under the top-level 'macros' key"
  | .noInputFiles pattern =>
    some s!"Check that files matching '{pattern}' exist relative to the working directory"
  | _ => none

def cause? : Error → Option String
  | .expansionFailed _ cause => some cause.message
  | _ => none

end Error

end PipelineTree
