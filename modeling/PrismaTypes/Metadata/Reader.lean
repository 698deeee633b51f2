import PrismaTypes.Schema.Basic
import PrismaTypes.Json.Reader

/-!
# Reading metadata

A schema from a JSON document. A record is an object with known keys, each at most once, or the list
of its properties in the order in which they are declared; unknown keys are not looked at. Every
reader is told how many more levels of nesting are allowed.
-/

namespace PrismaTypes

open Json (Tree)

namespace Metadata

/-- Reads a value when `room` more levels of nesting are allowed. -/
abbrev Decoder (α : Type) := Nat → Tree → Option α

/-! ## Parts -/

def Decoder.text : Decoder String
  | _, .text s => s
  | _, _ => none

def Decoder.bool : Decoder Bool
  | _, .bool b => some b
  | _, _ => none

/-- `null` stands for an absent value. -/
def Decoder.optional {α : Type} (decode : Decoder α) : Decoder (Option α)
  | _, .null => some none
  | room, t => (decode room t).map some

def Decoder.list {α : Type} (decode : Decoder α) : Decoder (List α)
  | room + 1, .list items => items.mapM (decode room)
  | _, _ => none

/-- All keys are texts. -/
def keysOf (members : List (Option String × Tree)) : Option (List (String × Tree)) :=
  members.mapM fun m => m.1.map fun key => (key, m.2)

/-- The properties of a record by name. -/
def properties (keys : List String) : Decoder (List (String × Tree))
  | _ + 1, .object members => do
      let known := (← keysOf members).filter fun m => keys.contains m.1
      if (known.map (·.1)).Nodup then some known else none
  | _ + 1, .list items => if items.length ≤ keys.length then some (keys.zip items) else none
  | _, _ => none

/-- A property that must be there. -/
def required {α : Type} (decode : Decoder α) (room : Nat) (key : String)
    (found : List (String × Tree)) : Option α :=
  (Members.get? key found).bind (decode room)

/-- A property with a value for its absence. -/
def defaulted {α : Type} (decode : Decoder α) (absent : α) (room : Nat) (key : String)
    (found : List (String × Tree)) : Option α :=
  match Members.get? key found with
  | some t => decode room t
  | none => some absent

end Metadata

open Metadata

/-! ## Default values -/

mutual

/-- A default value. A name and a list of values is a function call, written as an object or as a
list of the two. -/
def Default.ofTree? : Tree → Option Default
  | .bool b => some (.boolean b)
  | .number n => n.map .number
  | .text s => s.map .text
  | .list [.text (some name), .list args] => (Default.ofTrees? args).map (.call name)
  | .list items => (Default.ofTrees? items).map .list
  | .object members => Default.callOf? none none members
  | .null => none

def Default.ofTrees? : List Tree → Option (List Default)
  | [] => some []
  | t :: rest => do
      let d ← Default.ofTree? t
      let ds ← Default.ofTrees? rest
      return d :: ds

/-- A function call from members; `name` and `args` are those found before. -/
def Default.callOf? (name : Option String) (args : Option (List Default)) :
    List (Option String × Tree) → Option Default
  | [] => do return .call (← name) (← args)
  | (none, _) :: _ => none
  | (some key, t) :: rest =>
      if key = "name" then
        match name, t with
        | none, .text (some s) => Default.callOf? (some s) args rest
        | _, _ => none
      else if key = "args" then
        match args, t with
        | none, .list items => do
            let ds ← Default.ofTrees? items
            Default.callOf? name (some ds) rest
        | _, _ => none
      else Default.callOf? name args rest

end

/-- A default value is looked at as a whole, so every part of it has to be sound. -/
def Default.decode : Decoder Default := fun room t =>
  match t.toValue room with
  | .ok _ => Default.ofTree? t
  | .error _ => none

/-! ## Records -/

/-- A kind is a word, or an object that pairs the word with `null`. -/
def FieldKind.decode : Decoder FieldKind
  | _, .text s => s.bind FieldKind.ofWord?
  | _ + 1, .object [(some key, .null)] => FieldKind.ofWord? key
  | _, _ => none

def NativeType.decode : Decoder NativeType
  | room + 1, .list [.text (some name), args] =>
      (Decoder.list Decoder.text room args).map (⟨name, ·⟩)
  | _, _ => none

def Field.keys : List String :=
  ["name", "kind", "isList", "isRequired", "isUnique", "isId", "isReadOnly", "isUpdatedAt",
   "hasDefaultValue", "default", "type", "dbName", "nativeType", "relationName",
   "relationFromFields", "relationToFields", "relationOnDelete", "relationOnUpdate",
   "documentation"]

def Field.decode : Decoder Field := fun room t => do
  let found ← properties keys room t
  let room := room - 1
  return {
    name := ← required Decoder.text room "name" found
    kind := ← required FieldKind.decode room "kind" found
    isList := ← required Decoder.bool room "isList" found
    isRequired := ← required Decoder.bool room "isRequired" found
    isUnique := ← defaulted Decoder.bool false room "isUnique" found
    isId := ← defaulted Decoder.bool false room "isId" found
    isReadOnly := ← defaulted Decoder.bool false room "isReadOnly" found
    isUpdatedAt := ← defaulted Decoder.bool false room "isUpdatedAt" found
    hasDefault := ← defaulted Decoder.bool false room "hasDefaultValue" found
    default := ← defaulted (Decoder.optional Default.decode) none room "default" found
    typeName := ← required Decoder.text room "type" found
    dbName := ← defaulted (Decoder.optional Decoder.text) none room "dbName" found
    nativeType := ← defaulted (Decoder.optional NativeType.decode) none room "nativeType" found
    relationName := ← defaulted (Decoder.optional Decoder.text) none room "relationName" found
    relationFrom := ← defaulted (Decoder.list Decoder.text) [] room "relationFromFields" found
    relationTo := ← defaulted (Decoder.list Decoder.text) [] room "relationToFields" found
    onDelete := ← defaulted (Decoder.optional Decoder.text) none room "relationOnDelete" found
    onUpdate := ← defaulted (Decoder.optional Decoder.text) none room "relationOnUpdate" found
    documentation := ← defaulted (Decoder.optional Decoder.text) none room "documentation" found }

def PrimaryKey.decode : Decoder PrimaryKey := fun room t => do
  let found ← properties ["name", "fields"] room t
  let room := room - 1
  return {
    name := ← defaulted (Decoder.optional Decoder.text) none room "name" found
    fields := ← required (Decoder.list Decoder.text) room "fields" found }

def Model.keys : List String :=
  ["name", "dbName", "fields", "primaryKey", "uniqueFields", "documentation"]

def Model.decode : Decoder Model := fun room t => do
  let found ← properties keys room t
  let room := room - 1
  return {
    name := ← required Decoder.text room "name" found
    dbName := ← defaulted (Decoder.optional Decoder.text) none room "dbName" found
    fields := ← required (Decoder.list Field.decode) room "fields" found
    primaryKey := ← defaulted (Decoder.optional PrimaryKey.decode) none room "primaryKey" found
    uniqueFields :=
      ← defaulted (Decoder.list (Decoder.list Decoder.text)) [] room "uniqueFields" found
    documentation := ← defaulted (Decoder.optional Decoder.text) none room "documentation" found }

def EnumMember.decode : Decoder EnumMember := fun room t => do
  let found ← properties ["name", "dbName", "documentation"] room t
  let room := room - 1
  return {
    name := ← required Decoder.text room "name" found
    dbName := ← defaulted (Decoder.optional Decoder.text) none room "dbName" found
    documentation := ← defaulted (Decoder.optional Decoder.text) none room "documentation" found }

def EnumType.decode : Decoder EnumType := fun room t => do
  let found ← properties ["name", "values", "dbName", "documentation"] room t
  let room := room - 1
  return {
    name := ← required Decoder.text room "name" found
    members := ← required (Decoder.list EnumMember.decode) room "values" found
    dbName := ← defaulted (Decoder.optional Decoder.text) none room "dbName" found
    documentation := ← defaulted (Decoder.optional Decoder.text) none room "documentation" found }

def Schema.decode : Decoder Schema := fun room t => do
  let found ← properties ["models", "enums"] room t
  let room := room - 1
  return {
    models := ← required (Decoder.list Model.decode) room "models" found
    enums := ← required (Decoder.list EnumType.decode) room "enums" found }

/-- Reads a metadata document. -/
def Schema.ofMetadata? (text : String) : Option Schema :=
  match Json.readTree text.toList with
  | .ok tree => Schema.decode Json.maxDepth tree
  | .error _ => none

end PrismaTypes
