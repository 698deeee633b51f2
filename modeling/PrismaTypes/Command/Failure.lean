import PrismaTypes.Schema.Error
import PrismaTypes.Config.Reader

/-!
# Failures of a run

Everything that can end a run before its work is done.
-/

namespace PrismaTypes

/-- An output file or its directory could not be written. -/
structure OutputError where
  path : String
  cause : Files.FileError
  deriving DecidableEq, Repr

inductive Failure
  | schema (e : SchemaError)
  | config (e : ConfigError)
  | output (e : OutputError)
  deriving DecidableEq, Repr

namespace Failure

def message : Failure → String
  | schema e => e.message
  | config e => e.message
  | output e => "failed to write output: " ++ e.path

def code : Failure → String
  | schema e => e.code
  | config e => e.code
  | output _ => "extractor::codegen::output_write"

def help? : Failure → Option String
  | schema e => e.help?
  | config e => e.help?
  | output _ => none

/-- Texts of the errors below this one. -/
def causes : Failure → List String
  | schema e => e.causes
  | config e => e.causes
  | output e => [e.cause.message]

end Failure

end PrismaTypes
