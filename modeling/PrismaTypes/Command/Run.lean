import PrismaTypes.Command.Arguments
import PrismaTypes.Command.LogSettings
import PrismaTypes.Command.Project
import PrismaTypes.Command.Terminal

/-!
# Runs

The commands of the program and a whole run from its arguments to its exit code.
-/

namespace PrismaTypes
namespace Command

variable {m : Type → Type} [Monad m] [Host m]

def printAll : List String → m Unit
  | [] => pure ()
  | line :: rest => do
      Host.print line
      printAll rest

def printErrors : List String → m Unit
  | [] => pure ()
  | line :: rest => do
      Host.printError line
      printErrors rest

/-- Prints lines in an action that may fail. -/
def say {ε : Type} (lines : List String) : ExceptT ε m Unit :=
  Project.act (printAll lines)

/-- Writes the default configuration. -/
def runInit (path : String) : ExceptT Failure m Unit := do
  say (Terminal.header "Initialize prisma-extractor")
  if ← Project.act (Host.isThere path) then
    say [Terminal.warning (path ++ " exists and will be replaced with the defaults.")]
  ExceptT.adapt .config (Project.writeDefaultConfig path)
  say [Terminal.success ("Configuration file created at: " ++ path),
    Terminal.dimmed "You can now edit this file to customize type mappings."]

/-- The schema that a run reads from a file. -/
def loadSchema (path : String) : ExceptT SchemaError m Schema := do
  let resolved ← Project.resolveSchemaPath path
  let text ← Project.attempt (.unreadable resolved) (Host.readText resolved)
  let schema ← Project.parseSchema text
  Project.act (Host.notify (.schemaLoaded resolved schema.summary))
  return schema

/-- Generates declarations from a schema. -/
def runGenerate (r : Request) : ExceptT Failure m Unit := do
  say (Terminal.header "Generate TypeScript Declarations")
  let config ← ExceptT.adapt .config (Project.resolveConfig r.config)
  let schemaPath := r.schema.getD config.schemaFile
  let outputPath := r.output.getD config.outputFile
  say [Terminal.keyValue "Schema" schemaPath, Terminal.keyValue "Output" outputPath, "",
    Terminal.step 1 3 "Reading schema..."]
  let schema ← ExceptT.adapt .schema (loadSchema schemaPath)
  say [Terminal.step 2 3 "Generating declarations..."]
  let source ← Project.act (Project.emit config schema)
  say [Terminal.step 3 3 "Writing files..."]
  let written ← ExceptT.adapt .output
    (Project.writeOutputs schema source outputPath (r.metadata || config.writeMetadata))
  say [""]
  say (written.metadata.toList.map fun path =>
    Terminal.success ("Metadata successfully extracted to " ++ path))
  say [Terminal.success ("TypeScript declarations successfully generated at " ++ written.source)]

def perform : Command → ExceptT Failure m Unit
  | .init path => runInit path
  | .generate r => runGenerate r

/-- Shows a failure. -/
def report (f : Failure) : m Unit := do
  Host.print ""
  printErrors (Terminal.failure f.message :: f.causes.map Terminal.cause)

/-- How a run ends. -/
inductive Ending
  | usage (e : UsageError)
  | finished
  | failed (f : Failure)

def Ending.exitCode : Ending → Nat
  | usage e => e.exitCode
  | finished => 0
  | failed _ => 1

/-- A whole run. -/
def run (settings : LogSettings) (args : List String) : m Ending := do
  Host.notify settings.ready
  match read args with
  | .error e => return .usage e
  | .ok command =>
      match ← (perform command).run with
      | .ok () => return .finished
      | .error f =>
          report f
          return .failed f

end Command
end PrismaTypes
