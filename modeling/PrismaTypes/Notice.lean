/-!
# Notices

What the program reports about its work besides its result. A notice says what happened; its level,
its origin, its wording and its named values follow from that.
-/

namespace PrismaTypes

/-- How serious a notice is, from the least to the most. -/
inductive Level
  | trace
  | debug
  | info
  | warn
  | error
  deriving DecidableEq, Repr

namespace Level

def all : List Level :=
  [trace, debug, info, warn, error]

/-- The word for a level in settings. -/
def word : Level → String
  | trace => "trace"
  | debug => "debug"
  | info => "info"
  | warn => "warn"
  | error => "error"

/-- The word for a level in a log line. -/
def label : Level → String
  | trace => "TRACE"
  | debug => "DEBUG"
  | info => "INFO"
  | warn => "WARN"
  | error => "ERROR"

def rank : Level → Nat
  | trace => 0
  | debug => 1
  | info => 2
  | warn => 3
  | error => 4

end Level

/-- A named value of a notice. -/
inductive NoticeValue
  | text (s : String)
  | count (n : Nat)
  deriving DecidableEq, Repr

def NoticeValue.display : NoticeValue → String
  | text s => s
  | count n => toString n

inductive Notice
  | loggingReady (level format : String)
  /-- The configuration file is missing; `chosen` when the user named it. -/
  | configMissing (chosen : Bool) (path : String)
  | configLoaded (path : String)
  | configWritten (path : String)
  /-- A block for other tools, by its first line. -/
  | configBlockSkipped (headline : String)
  | blockSkipped (keyword name : String)
  /-- A field whose type is a composite type or a view. -/
  | compositeField (model field typeName : String)
  /-- A field whose type name is declared nowhere. -/
  | unresolvedField (model field typeName : String)
  | schemaParsed (summary : String)
  | schemaLoaded (path summary : String)
  | declarationsEmitted (enums models bytes : Nat)
  | metadataWritten (path : String)
  | declarationsWritten (path : String)
  deriving DecidableEq, Repr

namespace Notice

def level : Notice → Level
  | configMissing true _ => .warn
  | unresolvedField .. => .warn
  | schemaLoaded .. => .info
  | _ => .debug

/-- The part of the program that gives the notice. -/
def origin : Notice → String
  | loggingReady .. => "extractor_cli::logging"
  | schemaLoaded .. => "extractor_cli::commands::generate"
  | configMissing .. => "extractor_codegen::config"
  | configLoaded _ => "extractor_codegen::config"
  | configWritten _ => "extractor_codegen::config"
  | declarationsEmitted .. => "extractor_codegen::generators"
  | metadataWritten _ => "extractor_codegen::writer"
  | declarationsWritten _ => "extractor_codegen::writer"
  | configBlockSkipped _ => "extractor_schema::parser"
  | blockSkipped .. => "extractor_schema::parser"
  | compositeField .. => "extractor_schema::parser"
  | unresolvedField .. => "extractor_schema::parser"
  | schemaParsed _ => "extractor_schema::parser"

def message : Notice → String
  | loggingReady .. => "logging initialized"
  | configMissing true _ => "configuration file not found, using defaults"
  | configMissing false _ => "no configuration file, using defaults"
  | configLoaded _ => "loaded configuration"
  | configWritten _ => "wrote default configuration"
  | configBlockSkipped _ => "skipping block"
  | blockSkipped .. => "skipping block"
  | compositeField .. => "field refers to a composite type or view; passing the name through"
  | unresolvedField .. =>
      "type name does not resolve to a scalar, model or enum; treating it as a scalar"
  | schemaParsed _ => "parsed schema"
  | schemaLoaded .. => "schema loaded"
  | declarationsEmitted .. => "emitted declarations"
  | metadataWritten _ => "wrote metadata document"
  | declarationsWritten _ => "wrote declarations"

def values : Notice → List (String × NoticeValue)
  | loggingReady level format => [("level", .text level), ("format", .text format)]
  | configMissing _ path => [("path", .text path)]
  | configLoaded path => [("path", .text path)]
  | configWritten path => [("path", .text path)]
  | configBlockSkipped headline => [("block", .text headline)]
  | blockSkipped keyword name => [("keyword", .text keyword), ("name", .text name)]
  | compositeField model field typeName =>
      [("model", .text model), ("field", .text field), ("type_name", .text typeName)]
  | unresolvedField model field typeName =>
      [("model", .text model), ("field", .text field), ("type_name", .text typeName)]
  | schemaParsed summary => [("schema", .text summary)]
  | schemaLoaded path summary => [("path", .text path), ("schema", .text summary)]
  | declarationsEmitted enums models bytes =>
      [("enums", .count enums), ("models", .count models), ("bytes", .count bytes)]
  | metadataWritten path => [("path", .text path)]
  | declarationsWritten path => [("path", .text path)]

end Notice

end PrismaTypes
