import PrismaTypes.Command.Failure
import PrismaTypes.Command.Host
import PrismaTypes.Schema.Parse
import PrismaTypes.Metadata.Writer
import PrismaTypes.TypeScript.Declaration

/-!
# Projects

Schemas, configurations and generated files on a host. Every action gives its notices as it goes.
-/

namespace PrismaTypes
namespace Project

variable {m : Type → Type} [Monad m] [Host m]

/-- Turns a result into an action that may fail. -/
def lift {ε α : Type} (result : Except ε α) : ExceptT ε m α :=
  ExceptT.mk (pure result)

/-- An action on the host as one that may fail. -/
def act {ε α : Type} (action : m α) : ExceptT ε m α :=
  ExceptT.lift action

/-- An action of the host that may fail, with its error put into context. -/
def attempt {ε ε' α : Type} (context : ε → ε') (action : m (Except ε α)) : ExceptT ε' m α :=
  ExceptT.adapt context (ExceptT.mk action)

def notifyAll : List Notice → m Unit
  | [] => pure ()
  | n :: rest => do
      Host.notify n
      notifyAll rest

/-! ## Schemas -/

def parseSchema (text : String) : ExceptT SchemaError m Schema := do
  let reading := Schema.parse text
  act (notifyAll reading.notices)
  lift reading.result

/-- The absolute path of a schema file that is there. -/
def resolveSchemaPath (path : String) : ExceptT SchemaError m String := do
  let directory ← act (Host.workingDirectory)
  let resolved := Files.absolute directory path
  if ← act (Host.isFile resolved) then return resolved
  else throw (.notFound resolved)

def parseSchemaFile (path : String) : ExceptT SchemaError m Schema := do
  let resolved ← resolveSchemaPath path
  let text ← attempt (.unreadable resolved) (Host.readText resolved)
  parseSchema text

/-! ## Configurations -/

def loadConfig (path : String) : ExceptT ConfigError m Config := do
  let text ← attempt (.unreadable path) (Host.readText path)
  let config ← lift (Config.readFrom path text)
  act (Host.notify (.configLoaded path))
  return config

/-- The configuration of a run: the chosen file or the usual one, and the defaults if it is
missing. -/
def resolveConfig (chosen : Option String) : ExceptT ConfigError m Config := do
  let path := chosen.getD Config.fileName
  if ← act (Host.isThere path) then loadConfig path
  else
    act (Host.notify (.configMissing chosen.isSome path))
    return {}

/-- Writes the default configuration, in place of any file there. -/
def writeDefaultConfig (path : String) : ExceptT ConfigError m Unit := do
  attempt (.unwritable path) (Host.writeText path (({} : Config).render ++ "\n"))
  act (Host.notify (.configWritten path))

/-! ## Generated files -/

def emit (c : Config) (s : Schema) : m String := do
  let source := TypeScript.emit c s
  Host.notify (.declarationsEmitted s.enums.length s.models.length source.utf8ByteSize)
  return source

/-- The paths of the files that were written. -/
structure Written where
  source : String
  metadata : Option String
  deriving DecidableEq, Repr

/-- The directory of an output file. -/
def outputDirectory (path : String) : String :=
  match Files.parent? path with
  | some directory => if directory.isEmpty then "." else directory
  | none => "."

def metadataPath (directory : String) : String :=
  Files.join directory "metadata.json"

/-- Writes one output file. -/
def writeOutput (path content : String) : ExceptT OutputError m Unit :=
  attempt (⟨path, ·⟩) (Host.writeText path content)

/-- Writes the metadata document of a schema, if wanted. -/
def writeMetadata (wanted : Bool) (directory : String) (s : Schema) :
    ExceptT OutputError m (Option String) := do
  if wanted then
    let path := metadataPath directory
    writeOutput path (s.metadata ++ "\n")
    act (Host.notify (.metadataWritten path))
    return some path
  else return none

/-- Writes the generated source to `path` and, if wanted, the metadata document beside it, which
comes first. What was written stays when a later file fails. -/
def writeOutputs (s : Schema) (source path : String) (metadata : Bool) :
    ExceptT OutputError m Written := do
  let directory := outputDirectory path
  attempt (⟨directory, ·⟩) (Host.makeAll directory)
  let metadata ← writeMetadata metadata directory s
  writeOutput path source
  act (Host.notify (.declarationsWritten path))
  return { source := path, metadata }

end Project
end PrismaTypes
