import PrismaTypes.Config.Violation
import PrismaTypes.Json.Reader
import PrismaTypes.Files.Error

/-!
# Reading configurations

A configuration document is laid over the default one: its properties replace the default ones, but
entries of its type mapping are added to the standard mapping. The outcome has to obey all rules.
-/

namespace PrismaTypes

/-- Why a configuration could not be read or written. -/
inductive ConfigError
  | unreadable (path : String) (cause : Files.FileError)
  /-- The text is no JSON document, or one whose properties cannot be taken over. -/
  | malformed (path : String) (input : List Char) (cause : Json.ReadError)
  | invalid (violations : List Violation)
  | unwritable (path : String) (cause : Files.FileError)
  deriving DecidableEq, Repr

namespace ConfigError

def message : ConfigError → String
  | unreadable path _ => "failed to read configuration file: " ++ path
  | malformed path _ _ => "configuration at " ++ path ++ " is not valid JSON"
  | invalid violations =>
      "invalid configuration: " ++ "; ".intercalate (violations.map Violation.message)
  | unwritable path _ => "failed to write configuration file: " ++ path

def code : ConfigError → String
  | unreadable .. => "extractor::config::io_error"
  | malformed .. => "extractor::config::malformed"
  | invalid _ => "extractor::config::validation"
  | unwritable .. => "extractor::config::write_error"

def help? : ConfigError → Option String
  | malformed .. => some "the configuration file must contain a single JSON object"
  | invalid _ => some "run with --init to write a valid default configuration"
  | _ => none

/-- Texts of the errors below this one. -/
def causes : ConfigError → List String
  | unreadable _ cause => [cause.message]
  | malformed _ input cause => [cause.message input]
  | invalid _ => []
  | unwritable _ cause => [cause.message]

end ConfigError

namespace Config

open Json (Value)

/-! ## Laying documents over each other -/

/-- One property laid over a document. -/
def overlayMember (base : List (String × Value)) (key : String) (value : Value) :
    List (String × Value) :=
  match value, Members.get? key base with
  | .object entries, some (.object present) =>
      if key = "mapTypes" then Members.set key (.object (Members.setAll entries present)) base
      else Members.set key value base
  | _, _ => Members.set key value base

/-- All properties of `members` laid over `base`, in order. -/
def overlay (base members : List (String × Value)) : List (String × Value) :=
  members.foldl (fun acc m => overlayMember acc m.1 m.2) base

/-! ## Reading properties -/

def textOf? : Value → Option String
  | .text s => some s
  | _ => none

def boolOf? : Value → Option Bool
  | .bool b => some b
  | _ => none

/-- A text that may be absent or null. -/
def optionalTextOf? : Option Value → Option (Option String)
  | none | some .null => some none
  | some v => (textOf? v).map some

/-- One of several words, or an object with such a word and nothing behind it. -/
def choiceOf? {α : Type} (ofWord? : String → Option α) : Value → Option α
  | .text word => ofWord? word
  | .object [(word, .null)] => ofWord? word
  | _ => none

/-- Entries with texts as targets. -/
def mappingOf? : Value → Option TypeMapping
  | .object entries =>
      (entries.mapM fun e => (textOf? e.2).map fun target => (e.1, target)).map TypeMapping.mk
  | _ => none

/-- The configuration of a document. All properties but the first have to be there, and each has to
be of its type; others are passed over. -/
def ofMembers? (members : List (String × Value)) : Option Config := do
  let found := fun key => Members.get? key members
  return {
    schemaUrl := ← optionalTextOf? (found "$schema")
    modelStyle := ← (found "outputType").bind (choiceOf? ModelStyle.ofWord?)
    enumStyle := ← (found "enumOutputType").bind (choiceOf? EnumStyle.ofWord?)
    outputFile := ← (found "outputFile").bind textOf?
    schemaFile := ← (found "prismaSchema").bind textOf?
    writeMetadata := ← (found "generateMetadata").bind boolOf?
    relationsOptional := ← (found "relationFieldsOptional").bind boolOf?
    mapping := ← (found "mapTypes").bind mappingOf? }

/-! ## Whole documents -/

/-- The document laid over the default one, or every rule that the outcome breaks. -/
def complete : Value → Except (List Violation) (List (String × Value))
  | .object members =>
      let document := overlay ({} : Config).toMembers members
      match memberViolations document with
      | [] => .ok document
      | broken => .error broken
  | _ => .error [.notAnObject]

/-- Reads a configuration that comes from `path`. -/
def readFrom (path text : String) : Except ConfigError Config :=
  match Json.read text.toList with
  | .error e => .error (.malformed path text.toList e)
  | .ok value =>
      match complete value with
      | .error broken => .error (.invalid broken)
      | .ok document =>
          match ofMembers? document with
          | some c => .ok c
          | none => .error (.malformed path text.toList ⟨.mistyped, []⟩)

/-- Reads a configuration that comes from no file. -/
def read (text : String) : Except ConfigError Config :=
  readFrom "<string>" text

end Config

end PrismaTypes
