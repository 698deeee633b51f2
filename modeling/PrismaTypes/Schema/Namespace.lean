import PrismaTypes.Schema.Scalar
import PrismaTypes.Schema.Basic
import PrismaTypes.Schema.Error
import PrismaTypes.Members

/-!
# Namespaces

Models and enums share one namespace. A name can be declared once, and only if neither the schema
language nor TypeScript claims it.
-/

namespace PrismaTypes

/-- Words of TypeScript that cannot name a type. -/
def reservedWords : List String :=
  ["any", "as", "bigint", "boolean", "break", "case", "catch", "class", "const", "continue",
   "debugger", "declare", "default", "delete", "do", "else", "enum", "export", "extends",
   "false", "finally", "for", "function", "if", "implements", "import", "in", "instanceof",
   "interface", "let", "never", "new", "null", "number", "object", "package", "private",
   "protected", "public", "return", "static", "string", "super", "switch", "symbol", "this",
   "throw", "true", "try", "type", "typeof", "undefined", "unknown", "var", "void", "while",
   "with", "yield"]

def isReserved (name : String) : Bool :=
  (Scalar.ofKeyword? name).isSome || reservedWords.contains name

/-- What a declared name refers to. -/
inductive Declaration
  | model
  | enum
  deriving DecidableEq, Repr

namespace Declaration

def nameKind : Declaration → NameKind
  | model => .model
  | enum => .enum

def fieldKind : Declaration → FieldKind
  | model => .object
  | enum => .enum

end Declaration

/-- The declared names, in order. -/
structure Namespace where
  declarations : List (String × Declaration) := []
  deriving DecidableEq, Repr

namespace Namespace

def get? (n : Namespace) (name : String) : Option Declaration :=
  Members.get? name n.declarations

def size (n : Namespace) : Nat :=
  n.declarations.length

def isEmpty (n : Namespace) : Bool :=
  n.declarations.isEmpty

def declare (n : Namespace) (name : String) (d : Declaration) : Except SchemaError Namespace :=
  if isReserved name then .error (.reserved d.nameKind name)
  else if (n.get? name).isSome then .error (.duplicate d.nameKind name)
  else .ok ⟨n.declarations ++ [(name, d)]⟩

/-- The kind of a field with the given type name; scalars come first. -/
def resolve (n : Namespace) (typeName : String) : Option FieldKind :=
  if (Scalar.ofKeyword? typeName).isSome then some .scalar
  else (n.get? typeName).map Declaration.fieldKind

end Namespace

end PrismaTypes
