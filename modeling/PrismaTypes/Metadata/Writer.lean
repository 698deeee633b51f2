import PrismaTypes.Schema.Basic
import PrismaTypes.Json.Printer

/-!
# Writing metadata

A schema as a JSON document. Absent properties and empty lists are left out, except for the database
names of enum values and the name of a key, which are `null` when absent.
-/

namespace PrismaTypes

open Json (Value)

namespace Metadata

/-- A member that is there only with a value. -/
def memberIf (key : String) (value : Option Value) : List (String × Value) :=
  (value.map fun v => (key, v)).toList

def optionalText (s : Option String) : Value :=
  (s.map Value.text).getD .null

def textList (items : List String) : Value :=
  .list (items.map Value.text)

/-- A list of texts that is there only with items. -/
def textListIf (key : String) (items : List String) : List (String × Value) :=
  if items.isEmpty then [] else [(key, textList items)]

end Metadata

open Metadata

mutual

def Default.toJson : Default → Value
  | .call name args => .object [("name", .text name), ("args", .list (Default.toJsonList args))]
  | .list items => .list (Default.toJsonList items)
  | .boolean b => .bool b
  | .number n => .number n
  | .text s => .text s

def Default.toJsonList : List Default → List Value
  | [] => []
  | d :: rest => d.toJson :: Default.toJsonList rest

end

def NativeType.toJson (n : NativeType) : Value :=
  .list [.text n.name, textList n.args]

def Field.toJson (f : Field) : Value :=
  .object
    ([("name", .text f.name),
      ("kind", .text f.kind.word),
      ("isList", .bool f.isList),
      ("isRequired", .bool f.isRequired),
      ("isUnique", .bool f.isUnique),
      ("isId", .bool f.isId),
      ("isReadOnly", .bool f.isReadOnly),
      ("isUpdatedAt", .bool f.isUpdatedAt),
      ("hasDefaultValue", .bool f.hasDefault)]
    ++ memberIf "default" (f.default.map Default.toJson)
    ++ [("type", .text f.typeName)]
    ++ memberIf "dbName" (f.dbName.map .text)
    ++ memberIf "nativeType" (f.nativeType.map NativeType.toJson)
    ++ memberIf "relationName" (f.relationName.map .text)
    ++ textListIf "relationFromFields" f.relationFrom
    ++ textListIf "relationToFields" f.relationTo
    ++ memberIf "relationOnDelete" (f.onDelete.map .text)
    ++ memberIf "relationOnUpdate" (f.onUpdate.map .text)
    ++ memberIf "documentation" (f.documentation.map .text))

def PrimaryKey.toJson (k : PrimaryKey) : Value :=
  .object [("name", optionalText k.name), ("fields", textList k.fields)]

def Model.toJson (m : Model) : Value :=
  .object
    ([("name", .text m.name)]
    ++ memberIf "dbName" (m.dbName.map .text)
    ++ [("fields", .list (m.fields.map Field.toJson))]
    ++ memberIf "primaryKey" (m.primaryKey.map PrimaryKey.toJson)
    ++ (if m.uniqueFields.isEmpty then []
        else [("uniqueFields", .list (m.uniqueFields.map textList))])
    ++ memberIf "documentation" (m.documentation.map .text))

def EnumMember.toJson (m : EnumMember) : Value :=
  .object
    ([("name", .text m.name), ("dbName", optionalText m.dbName)]
    ++ memberIf "documentation" (m.documentation.map .text))

def EnumType.toJson (e : EnumType) : Value :=
  .object
    ([("name", .text e.name), ("values", .list (e.members.map EnumMember.toJson))]
    ++ memberIf "dbName" (e.dbName.map .text)
    ++ memberIf "documentation" (e.documentation.map .text))

def Schema.toJson (s : Schema) : Value :=
  .object
    [("models", .list (s.models.map Model.toJson)), ("enums", .list (s.enums.map EnumType.toJson))]

/-- The metadata document. -/
def Schema.metadata (s : Schema) : String :=
  s.toJson.pretty

end PrismaTypes
