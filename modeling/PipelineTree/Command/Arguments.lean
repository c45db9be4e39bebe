import PipelineTree.Command.Generate
import PipelineTree.Command.Platforms

/-!
# Arguments — the command line

A command line names a command, with options before it that hold for all commands and options after it.
An option has a long name, perhaps a short one, and perhaps a value; short names can be written
together.  An option stands once at each level; what stands after the command wins.  Some options can
be given by variables of the environment instead.
-/

namespace PipelineTree

/-- What is to be done. -/
inductive Command where
  | generate (target : Target) (dryRun : Bool)
  | watch (target : Target) (debounce : Nat)
  | platforms (format : ListFormat)
  deriving DecidableEq, Repr

/-- A command line. -/
structure Invocation where
  command : Command
  verbose : Bool
  /-- where to go before anything is done -/
  directory : Option Path
  deriving DecidableEq, Repr

/-- Why a command line is not carried out. -/
inductive ArgumentError where
  | help
  | version
  /-- nothing is said at all -/
  | nothing
  | missingCommand
  | unknownCommand
  | missingInput
  | unknownArgument
  /-- an option stands twice -/
  | repeated
  /-- an option lacks its value, or has one that is not among those allowed -/
  | invalidValue
  /-- a value cannot be read -/
  | unreadableValue
  /-- an option has a value but takes none -/
  | strayValue
  deriving DecidableEq, Repr

namespace ArgumentError

def text : ArgumentError → String
  | .help => "help requested"
  | .version => "version requested"
  | .nothing => "a command is required"
  | .missingCommand => "a command is required"
  | .unknownCommand => "unrecognized subcommand"
  | .missingInput => "the following required arguments were not provided: <INPUT>..."
  | .unknownArgument => "unexpected argument"
  | .repeated => "an argument cannot be used multiple times"
  | .invalidValue => "invalid value"
  | .unreadableValue => "invalid value: not a number"
  | .strayValue => "unexpected value for a flag"

end ArgumentError

abbrev Environment := List (String × String)

namespace Arguments

/-! ## Options -/

/-- The options. -/
inductive Key where
  | help
  | version
  | verbose
  | directory
  | outDir
  | maxDepth
  | dryRun
  | debounce
  | format
  deriving DecidableEq, Repr

namespace Key

def long : Key → String
  | .help => "help"
  | .version => "version"
  | .verbose => "verbose"
  | .directory => "directory"
  | .outDir => "out-dir"
  | .maxDepth => "max-depth"
  | .dryRun => "dry-run"
  | .debounce => "debounce"
  | .format => "format"

def short? : Key → Option Char
  | .help => some 'h'
  | .version => some 'V'
  | .verbose => some 'v'
  | .directory => some 'C'
  | .outDir => some 'o'
  | .format => some 'f'
  | _ => none

def takesValue : Key → Bool
  | .help | .version | .verbose | .dryRun => false
  | _ => true

def environmentName? : Key → Option String
  | .outDir => some "PIPEWEAVE_OUT_DIR"
  | .maxDepth => some "PIPEWEAVE_MAX_DEPTH"
  | _ => none

end Key

def variableNames : List String := [Key.outDir, Key.maxDepth].filterMap Key.environmentName?

/-- The levels of a command line: the program, and the commands. -/
inductive Level where
  | program
  | generate
  | watch
  | platforms
  deriving DecidableEq, Repr

namespace Level

def keys : Level → List Key
  | .program => [.verbose, .directory, .help, .version]
  | .generate => [.outDir, .maxDepth, .dryRun, .verbose, .directory, .help]
  | .watch => [.outDir, .maxDepth, .debounce, .verbose, .directory, .help]
  | .platforms => [.format, .verbose, .directory, .help]

def takesInputs : Level → Bool
  | .generate | .watch => true
  | .program | .platforms => false

def ofName? : String → Option Level
  | "generate" => some .generate
  | "watch" => some .watch
  | "platforms" => some .platforms
  | _ => none

end Level

/-! ## Values -/

/-- What has been given at a level. -/
structure Given where
  keys : List Key
  directory : Option Path
  outDir : Option Path
  maxDepth : Option Nat
  debounce : Option Nat
  format : Option ListFormat
  inputs : List String
  deriving DecidableEq, Repr

namespace Given

def nothing : Given := ⟨[], none, none, none, none, none, []⟩

def has (given : Given) (key : Key) : Bool := given.keys.contains key

def readPath (text : String) : Except ArgumentError Path :=
  if text.isEmpty then .error .invalidValue else .ok ⟨text⟩

/-- Reads a number of at most 64 bits, perhaps with a plus sign. -/
def readNatural (text : String) : Except ArgumentError Nat :=
  let digits := match text.toList with
    | '+' :: cs => cs
    | cs => cs
  match digits? 10 digits with
  | some n => if n < Nat.pow 2 64 then .ok n else .error .unreadableValue
  | none => .error .unreadableValue

def readFormat : String → Except ArgumentError ListFormat
  | "text" => .ok .text
  | "json" => .ok .json
  | _ => .error .invalidValue

def set (given : Given) (key : Key) (text : String) : Except ArgumentError Given := do
  let given := { given with keys := key :: given.keys }
  match key with
  | .directory => do
    let path ← readPath text
    pure { given with directory := some path }
  | .outDir => do
    let path ← readPath text
    pure { given with outDir := some path }
  | .maxDepth => do
    let n ← readNatural text
    pure { given with maxDepth := some n }
  | .debounce => do
    let n ← readNatural text
    pure { given with debounce := some n }
  | .format => do
    let format ← readFormat text
    pure { given with format := some format }
  | .help | .version | .verbose | .dryRun => pure given

def add (given : Given) (key : Key) (text : String) : Except ArgumentError Given :=
  if given.has key then .error .repeated else given.set key text

/-- Adds what the environment says, for options that have not been given. -/
def addVariables (environment : Environment) (given : Given) :
    List Key → Except ArgumentError Given
  | [] => .ok given
  | key :: keys =>
    match if given.has key then none else key.environmentName?.bind fun name => environment.lookup name with
    | some text => do
      let given ← given.set key text
      given.addVariables environment keys
    | none => given.addVariables environment keys

end Given

/-! ## Reading -/

/-- An option that has been named: its value, once that has been read, is not looked at yet. -/
structure Pending where
  key : Key
  value : Option String
  deriving DecidableEq, Repr

/-- How far a level has been read. -/
structure State where
  given : Given
  pending : Option Pending
  /-- whether only inputs follow -/
  trailing : Bool
  deriving DecidableEq, Repr

namespace State

def start : State := ⟨Given.nothing, none, false⟩

/-- Whether the next argument is the value of an option. -/
def awaitsValue (state : State) : Bool := state.pending.any (·.value.isNone)

def settle (state : State) : Except ArgumentError State :=
  match state.pending with
  | none => .ok state
  | some ⟨_, none⟩ => .error .invalidValue
  | some ⟨key, some text⟩ => do
    let given ← state.given.add key text
    .ok { state with given := given, pending := none }

def flag (state : State) (key : Key) : Except ArgumentError State := do
  let state ← state.settle
  match key with
  | .help => .error .help
  | .version => .error .version
  | key => do
    let given ← state.given.add key ""
    .ok { state with given := given }

/-- Adds an option that takes a value, which may be attached to it. -/
def option (state : State) (key : Key) (attached : Option String) : Except ArgumentError State := do
  let state ← state.settle
  match attached with
  | some text => do
    let given ← state.given.add key text
    .ok { state with given := given }
  | none => .ok { state with pending := some ⟨key, none⟩ }

def long (level : Level) (state : State) (name : String) (attached : Option String) :
    Except ArgumentError State :=
  match level.keys.find? (·.long == name) with
  | none => .error .unknownArgument
  | some key =>
    if key.takesValue then state.option key attached
    else if attached.isSome then .error .strayValue
    else state.flag key

/-- Reads short names written together. What follows an option with a value is the value. -/
def short (level : Level) (state : State) : List Char → Except ArgumentError State
  | [] => .ok state
  | c :: cs =>
    match level.keys.find? (·.short? == some c) with
    | none => .error .unknownArgument
    | some key =>
      if key.takesValue then
        match cs with
        | [] => state.option key none
        | '=' :: value => state.option key (some (String.ofList value))
        | value => state.option key (some (String.ofList value))
      else do
        let state ← state.flag key
        state.short level cs

def splitLong (cs : List Char) : String × Option String :=
  let name := String.ofList (cs.takeWhile (· != '='))
  match cs.dropWhile (· != '=') with
  | _ :: value => (name, some (String.ofList value))
  | [] => (name, none)

def input (level : Level) (state : State) (text : String) : Except ArgumentError State :=
  if level.takesInputs then do
    let state ← state.settle
    .ok { state with given := { state.given with inputs := state.given.inputs ++ [text] } }
  else
    match level with
    | .program =>
      if state.trailing && (text == "help" || (Level.ofName? text).isSome) then
        .error .unknownArgument
      else .error .unknownCommand
    | _ => .error .unknownArgument

def step (level : Level) (state : State) (text : String) : Except ArgumentError State :=
  if state.trailing then state.input level text
  else
    match text.toList with
    | ['-', '-'] => .ok { state with trailing := true }
    | '-' :: '-' :: cs =>
      let (name, attached) := splitLong cs
      state.long level name attached
    | '-' :: c :: cs => state.short level (c :: cs)
    | _ =>
      match state.pending with
      | some ⟨key, none⟩ => .ok { state with pending := some ⟨key, some text⟩ }
      | _ => state.input level text

def steps (level : Level) (state : State) : List String → Except ArgumentError State
  | [] => .ok state
  | text :: texts => do
    let next ← state.step level text
    next.steps level texts

end State

def readCommand (environment : Environment) (level : Level) (texts : List String) :
    Except ArgumentError Given := do
  let state ← State.start.steps level texts
  let state ← state.settle
  let given ← state.given.addVariables environment level.keys
  if level.takesInputs && given.inputs.isEmpty then .error .missingInput else .ok given

/-- What is asked for after `help`: nothing, or one command. -/
def readHelp : List String → ArgumentError
  | [] => .help
  | [name] => if name == "help" || (Level.ofName? name).isSome then .help else .unknownCommand
  | _ => .unknownCommand

def commandOf (level : Level) (given : Given) : Command :=
  let target : Target := ⟨given.inputs, given.outDir, given.maxDepth⟩
  match level with
  | .watch => .watch target (given.debounce.getD 500)
  | .platforms => .platforms (given.format.getD .text)
  | _ => .generate target (given.has .dryRun)

def readProgram (environment : Environment) (state : State) :
    List String → Except ArgumentError Invocation
  | [] => do
    let state ← state.settle
    if state.given.keys.isEmpty then .error .nothing else .error .missingCommand
  | text :: texts =>
    let named := if state.trailing || state.awaitsValue then none else some text
    if named == some "help" then .error (readHelp texts)
    else
      match named.bind Level.ofName? with
      | some level => do
        let given ← readCommand environment level texts
        let state ← state.settle
        .ok
          { command := commandOf level given
            verbose := state.given.has .verbose || given.has .verbose
            directory := given.directory.or state.given.directory }
      | none => do
        let next ← state.step .program text
        readProgram environment next texts

end Arguments

def Invocation.ofArguments (arguments : List String) (environment : Environment) :
    Except ArgumentError Invocation :=
  Arguments.readProgram environment Arguments.State.start arguments

end PipelineTree
