import PrismaTypes.Config.Basic

/-!
# Command line arguments

Arguments are taken from left to right, and the first one at fault ends the reading. Options are
`--init`, `--metadata` or `-m`, `--config` or `-c` with a value, help and version; two positional
arguments name the schema and the output. After `--` everything is positional.
-/

namespace PrismaTypes
namespace Command

/-- Why the arguments give no command. -/
inductive UsageError
  | unknownArgument
  | invalidValue
  | tooManyValues
  | argumentConflict
  | displayHelp
  | displayVersion
  deriving DecidableEq, Repr

/-- Help and version are no failures. -/
def UsageError.exitCode : UsageError → Nat
  | displayHelp => 0
  | displayVersion => 0
  | _ => 1

structure Arguments where
  schema : Option String := none
  output : Option String := none
  config : Option String := none
  init : Bool := false
  metadata : Bool := false
  deriving DecidableEq, Repr

namespace Arguments

/-! ## Single settings -/

def setInit (a : Arguments) : Except UsageError Arguments :=
  if a.init then .error .argumentConflict else .ok { a with init := true }

def setMetadata (a : Arguments) : Except UsageError Arguments :=
  if a.metadata then .error .argumentConflict else .ok { a with metadata := true }

def setConfig (a : Arguments) (value : List Char) : Except UsageError Arguments :=
  if a.config.isSome then .error .argumentConflict
  else if value.isEmpty then .error .invalidValue
  else .ok { a with config := some (String.ofList value) }

def addPositional (a : Arguments) (value : List Char) : Except UsageError Arguments :=
  if a.output.isSome then .error .unknownArgument
  else if value.isEmpty then .error .invalidValue
  else if a.schema.isSome then .ok { a with output := some (String.ofList value) }
  else .ok { a with schema := some (String.ofList value) }

/-! ## Single arguments -/

/-- The arguments so far, and whether the next one is the value of `--config`. -/
structure State where
  args : Arguments := {}
  wantsValue : Bool := false
  onlyPositional : Bool := false

/-- A long option without its dashes. -/
def State.long (s : State) (body : List Char) : Except UsageError State :=
  let name := String.ofList (body.takeWhile (· ≠ '='))
  let value : Option (List Char) :=
    if body.contains '=' then some ((body.dropWhile (· ≠ '=')).drop 1) else none
  let flag (result : Except UsageError Arguments) : Except UsageError State :=
    if value.isSome then .error .tooManyValues else result.map ({ s with args := · })
  if name = "init" then flag s.args.setInit
  else if name = "metadata" then flag s.args.setMetadata
  else if name = "help" then flag (.error .displayHelp)
  else if name = "version" then flag (.error .displayVersion)
  else if name = "config" then
    match value with
    | some v => (s.args.setConfig v).map ({ s with args := · })
    | none => .ok { s with wantsValue := true }
  else .error .unknownArgument

/-- Short options behind one dash; `c` takes the rest as its value. -/
def State.short (s : State) : List Char → Except UsageError State
  | [] => .ok s
  | c :: rest =>
      if c = 'm' then
        match s.args.setMetadata with
        | .ok args => State.short { s with args } rest
        | .error e => .error e
      else if c = 'h' then .error .displayHelp
      else if c = 'V' then .error .displayVersion
      else if c = 'c' then
        match rest with
        | [] => .ok { s with wantsValue := true }
        | '=' :: value => (s.args.setConfig value).map ({ s with args := · })
        | value => (s.args.setConfig value).map ({ s with args := · })
      else .error .unknownArgument

/-- Starts with a dash and is more than one. -/
def isOption : List Char → Bool
  | '-' :: _ :: _ => true
  | _ => false

def State.step (s : State) (arg : List Char) : Except UsageError State :=
  if s.wantsValue then
    if isOption arg then .error .invalidValue
    else (s.args.setConfig arg).map fun args => { s with args, wantsValue := false }
  else if s.onlyPositional || !isOption arg then
    (s.args.addPositional arg).map ({ s with args := · })
  else
    match arg with
    | ['-', '-'] => .ok { s with onlyPositional := true }
    | '-' :: '-' :: body => s.long body
    | _ => s.short (arg.drop 1)

/-! ## All arguments -/

def readFrom (s : State) : List String → Except UsageError Arguments
  | [] => if s.wantsValue then .error .invalidValue else .ok s.args
  | arg :: rest =>
      match s.step arg.toList with
      | .ok next => readFrom next rest
      | .error e => .error e

def read (args : List String) : Except UsageError Arguments :=
  readFrom {} args

end Arguments

/-! ## Commands -/

/-- What one run is asked to generate. -/
structure Request where
  schema : Option String
  output : Option String
  config : Option String
  metadata : Bool
  deriving DecidableEq, Repr

end Command

inductive Command
  /-- Write the default configuration. -/
  | init (configPath : String)
  | generate (request : Command.Request)
  deriving DecidableEq, Repr

namespace Command

/-- Initialisation wins over everything else. -/
def ofArguments (a : Arguments) : Command :=
  if a.init then .init (a.config.getD Config.fileName)
  else .generate ⟨a.schema, a.output, a.config, a.metadata⟩

def read (args : List String) : Except UsageError Command :=
  (Arguments.read args).map ofArguments

end Command
end PrismaTypes
