import PrismaTypes.Members
import PrismaTypes.Schema.Scalar

/-!
# Type mappings

Which TypeScript type stands for a scalar. Names without an entry stand for themselves, and the
entries keep the order in which they were first set.
-/

namespace PrismaTypes

/-- The TypeScript type of a scalar when nothing else is configured. -/
def Scalar.target : Scalar → String
  | .string => "string"
  | .int => "number"
  | .float => "number"
  | .bigInt => "bigint"
  | .boolean => "boolean"
  | .dateTime => "Date"
  | .json => "string"
  | .decimal => "number"
  | .bytes => "Buffer"
  | .unsupported => "unknown"

structure TypeMapping where
  entries : List (String × String) := []
  deriving DecidableEq, Repr

namespace TypeMapping

/-- The last target given for a name, at the place of the first. -/
def ofPairs (pairs : List (String × String)) : TypeMapping :=
  ⟨Members.ofPairs pairs⟩

/-- Every scalar with its usual target. -/
def standard : TypeMapping :=
  ofPairs (Scalar.all.map fun s => (s.keyword, s.target))

def insert (m : TypeMapping) (name target : String) : TypeMapping :=
  ⟨Members.set name target m.entries⟩

def get? (m : TypeMapping) (name : String) : Option String :=
  Members.get? name m.entries

def resolve (m : TypeMapping) (name : String) : String :=
  (m.get? name).getD name

def size (m : TypeMapping) : Nat :=
  m.entries.length

def isEmpty (m : TypeMapping) : Bool :=
  m.entries.isEmpty

end TypeMapping

end PrismaTypes
