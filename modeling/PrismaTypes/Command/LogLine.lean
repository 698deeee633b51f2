import PrismaTypes.Command.LogSettings
import PrismaTypes.Json.Printer

/-!
# Log lines

A notice as one line of the log.
-/

namespace PrismaTypes

def NoticeValue.toJson : NoticeValue → Json.Value
  | text s => .text s
  | count n => .number (.whole n)

namespace Notice

def toJson (n : Notice) : Json.Value :=
  .object
    [("level", .text n.level.label),
     ("fields", .object (("message", .text n.message) :: n.values.map fun v => (v.1, v.2.toJson))),
     ("target", .text n.origin)]

/-- A line for human readers. -/
def toLine (n : Notice) : String :=
  n.level.label ++ " " ++ n.origin ++ ": "
    ++ " ".intercalate (n.message :: n.values.map fun v => v.1 ++ "=" ++ v.2.display)

def render (format : LogFormat) (n : Notice) : String :=
  match format with
  | .json => n.toJson.compact
  | .pretty => n.toLine
  | .compact => n.toLine

end Notice

end PrismaTypes
