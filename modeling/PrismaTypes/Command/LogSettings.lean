import PrismaTypes.Notice

/-!
# Log settings

Which notices are shown and how, as environment variables say. Letter case does not matter. All
accepted words are plain ASCII, and no text with another character equals one of them in lower case,
so lower-casing ASCII letters decides.
-/

namespace PrismaTypes

inductive LogFormat
  | json
  | pretty
  | compact
  deriving DecidableEq, Repr

def LogFormat.name : LogFormat → String
  | json => "Json"
  | pretty => "Pretty"
  | compact => "Compact"

structure LogSettings where
  level : Level
  format : LogFormat
  deriving DecidableEq, Repr

namespace LogSettings

def lowerCase (s : String) : String :=
  String.ofList (s.toList.map Char.toLower)

/-- A variable that switches something on. -/
def isOn (value : Option String) : Bool :=
  match value with
  | some s => ["true", "1", "yes"].contains (lowerCase s)
  | none => false

/-- The level that a variable names, if it names one. -/
def levelOf? (value : Option String) : Option Level :=
  value.bind fun s => Level.all.find? (·.word == lowerCase s)

def formatOf (value : Option String) : LogFormat :=
  match value.map lowerCase with
  | some "json" => .json
  | some "pretty" => .pretty
  | _ => .compact

/-- Without a level of its own the log shows warnings, or everything from debugging on. -/
def ofVariables (debug level format : Option String) : LogSettings where
  level := (levelOf? level).getD (if isOn debug then .debug else .warn)
  format := formatOf format

/-- The parts of the program that are heard, each with the level. -/
def filterText (s : LogSettings) : String :=
  ",".intercalate
    (["extractor_codegen", "extractor_schema", "extractor_cli"].map (· ++ "=" ++ s.level.word))

def shows (s : LogSettings) (n : Notice) : Bool :=
  s.level.rank ≤ n.level.rank

/-- The first notice of every run. -/
def ready (s : LogSettings) : Notice :=
  .loggingReady s.level.word s.format.name

end LogSettings

end PrismaTypes
