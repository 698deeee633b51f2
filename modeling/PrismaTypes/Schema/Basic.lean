import PrismaTypes.Schema.Default

/-!
# Schemas

A schema with everything looked up: models with their fields and enums with their members, each in
the order of declaration.
-/

namespace PrismaTypes

/-! ## Fields -/

/-- What a field's type name refers to. -/
inductive FieldKind
  | scalar
  | enum
  | object
  deriving DecidableEq, Repr

namespace FieldKind

def all : List FieldKind :=
  [scalar, enum, object]

def word : FieldKind → String
  | scalar => "scalar"
  | enum => "enum"
  | object => "object"

def ofWord? (s : String) : Option FieldKind :=
  all.find? (·.word == s)

end FieldKind

/-- A type of the database: its name and its arguments as written. -/
structure NativeType where
  name : String
  args : List String
  deriving DecidableEq, Repr

structure Field where
  name : String
  kind : FieldKind
  isList : Bool := false
  isRequired : Bool := true
  isUnique : Bool := false
  isId : Bool := false
  /-- A relation of the same model stores its key in this field. -/
  isReadOnly : Bool := false
  isUpdatedAt : Bool := false
  hasDefault : Bool := false
  default : Option Default := none
  /-- The type name as written. -/
  typeName : String
  dbName : Option String := none
  nativeType : Option NativeType := none
  relationName : Option String := none
  /-- Fields of this model that hold the key of the related one. -/
  relationFrom : List String := []
  /-- Fields of the related model that the key refers to. -/
  relationTo : List String := []
  onDelete : Option String := none
  onUpdate : Option String := none
  documentation : Option String := none
  deriving BEq

namespace Field

def isRelation (f : Field) : Bool :=
  f.kind = .object

def optional (f : Field) : Field :=
  { f with isRequired := false }

/-- A list is always there, possibly empty. -/
def list (f : Field) : Field :=
  { f with isList := true, isRequired := true }

end Field

/-! ## Models -/

/-- A key made of several fields. -/
structure PrimaryKey where
  name : Option String
  fields : List String
  deriving DecidableEq, Repr

structure Model where
  name : String
  dbName : Option String := none
  fields : List Field := []
  primaryKey : Option PrimaryKey := none
  /-- Groups of fields that are unique together. -/
  uniqueFields : List (List String) := []
  documentation : Option String := none
  deriving BEq

namespace Model

def field? (m : Model) (name : String) : Option Field :=
  m.fields.find? (·.name == name)

def relations (m : Model) : List Field :=
  m.fields.filter Field.isRelation

/-- The name of the model in the database. -/
def tableName (m : Model) : String :=
  m.dbName.getD m.name

end Model

/-! ## Enums -/

structure EnumMember where
  name : String
  dbName : Option String := none
  documentation : Option String := none
  deriving DecidableEq, Repr

/-- The value stored in the database. -/
def EnumMember.dbValue (m : EnumMember) : String :=
  m.dbName.getD m.name

structure EnumType where
  name : String
  members : List EnumMember := []
  dbName : Option String := none
  documentation : Option String := none
  deriving DecidableEq, Repr

def EnumType.member? (e : EnumType) (name : String) : Option EnumMember :=
  e.members.find? (·.name == name)

/-! ## Schemas -/

structure Schema where
  models : List Model := []
  enums : List EnumType := []
  deriving BEq

namespace Schema

def model? (s : Schema) (name : String) : Option Model :=
  s.models.find? (·.name == name)

def enum? (s : Schema) (name : String) : Option EnumType :=
  s.enums.find? (·.name == name)

def addModel (s : Schema) (m : Model) : Schema :=
  { s with models := s.models ++ [m] }

def addEnum (s : Schema) (e : EnumType) : Schema :=
  { s with enums := s.enums ++ [e] }

def isEmpty (s : Schema) : Bool :=
  s.models.isEmpty && s.enums.isEmpty

def fieldCount (s : Schema) : Nat :=
  (s.models.flatMap Model.fields).length

def relationCount (s : Schema) : Nat :=
  (s.models.flatMap Model.relations).length

/-- The sizes of a schema in one line. -/
def summary (s : Schema) : String :=
  "Schema(" ++ toString s.models.length ++ " models, " ++ toString s.enums.length ++ " enums, "
    ++ toString s.fieldCount ++ " fields, " ++ toString s.relationCount ++ " relations)"

end Schema

end PrismaTypes
