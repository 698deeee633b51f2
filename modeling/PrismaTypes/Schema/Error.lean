import PrismaTypes.Grammar.Report
import PrismaTypes.Outline.Reader
import PrismaTypes.Files.Error

/-!
# Schema errors

Why a schema could not be read.
-/

namespace PrismaTypes

/-- What a name is given to. -/
inductive NameKind
  | model
  | enum
  | field
  | enumValue
  deriving DecidableEq, Repr

def NameKind.word : NameKind → String
  | model => "model"
  | enum => "enum"
  | field => "field"
  | enumValue => "enum value"

inductive SchemaError
  | notFound (path : String)
  | unreadable (path : String) (cause : Files.FileError)
  /-- The grammar refuses the text. -/
  | refused (input : List Char) (failure : Grammar.Failure)
  | misfit (m : Outline.Misfit)
  | duplicate (kind : NameKind) (name : String)
  /-- The name belongs to the schema language or to the generated one. -/
  | reserved (kind : NameKind) (name : String)
  deriving DecidableEq, Repr

namespace SchemaError

def message : SchemaError → String
  | notFound path => "schema file not found at: " ++ path
  | unreadable path _ => "failed to read schema file: " ++ path
  | refused input failure => "syntax error in schema: " ++ failure.report input
  | misfit m => "syntax error in schema: " ++ m.cause.message
  | duplicate kind name => "duplicate " ++ kind.word ++ " `" ++ name ++ "`"
  | reserved kind name => kind.word ++ " `" ++ name ++ "` uses a reserved name"

def code : SchemaError → String
  | notFound _ => "extractor::schema::not_found"
  | unreadable .. => "extractor::schema::io_error"
  | refused .. => "extractor::schema::syntax_error"
  | misfit _ => "extractor::schema::syntax_error"
  | duplicate .. => "extractor::schema::duplicate"
  | reserved .. => "extractor::schema::reserved_name"

def help? : SchemaError → Option String
  | reserved kind _ =>
      some ("rename the " ++ kind.word
        ++ "; scalar keywords and TypeScript keywords cannot name a type")
  | _ => none

/-- Texts of the errors below this one. -/
def causes : SchemaError → List String
  | unreadable _ cause => [cause.message]
  | _ => []

/-- Offset and length of the text at fault. -/
def span? : SchemaError → Option (Nat × Nat)
  | refused _ failure => some (failure.offset, 0)
  | misfit m => some (m.offset, m.length)
  | _ => none

end SchemaError

end PrismaTypes
