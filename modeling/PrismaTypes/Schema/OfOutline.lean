import PrismaTypes.Schema.Namespace
import PrismaTypes.Schema.Documentation
import PrismaTypes.Notice

/-!
# From outlines to schemas

Blocks are taken in order. Attributes become properties of fields, models and enums; names are
declared; and once all names are known the kind of every field is looked up.
-/

namespace PrismaTypes

open Outline (Attribute FieldDecl ValueDecl Item Block)

/-! ## Fields -/

/-- An argument of a database type: strings without quotes, all else as displayed. -/
def nativeArg : Outline.Value → String
  | .text s => s
  | v => v.display

/-- The name of the database type that an attribute name stands for. -/
def nativeName? (name : String) : Option String :=
  match name.toList with
  | 'd' :: 'b' :: '.' :: rest => some (String.ofList rest)
  | _ => none

namespace Field

def applyRelation (f : Field) (a : Attribute) : Field :=
  { f with
    relationName := (a.textArg? "name").or f.relationName
    relationFrom := ((a.named? "fields").map Outline.Value.nameList).getD f.relationFrom
    relationTo := ((a.named? "references").map Outline.Value.nameList).getD f.relationTo
    onDelete := a.pathArg? "onDelete"
    onUpdate := a.pathArg? "onUpdate" }

/-- The field after one of its attributes; unknown attributes change nothing. -/
def applyAttribute (f : Field) (a : Attribute) : Field :=
  if a.is "id" then { f with isId := true }
  else if a.is "unique" then { f with isUnique := true }
  else if a.is "default" then
    { f with hasDefault := true, default := a.first?.map Default.ofValue }
  else if a.is "updatedAt" then { f with isUpdatedAt := true }
  else if a.is "map" then { f with dbName := a.textArg? "name" }
  else if a.is "relation" then f.applyRelation a
  else
    match nativeName? a.name with
    | some name => { f with nativeType := some ⟨name, a.args.map fun arg => nativeArg arg.2⟩ }
    | none => f

/-- A declared field. It counts as a scalar until all names are known. -/
def ofDecl (d : FieldDecl) : Field :=
  d.attributes.foldl applyAttribute
    { name := d.name, kind := .scalar, isList := d.isList, isRequired := !d.isOptional,
      typeName := d.typeName }

end Field

/-- The first name that stood in the list before. -/
def firstRepeated? (seen : List String) : List String → Option String
  | [] => none
  | name :: rest => if seen.contains name then some name else firstRepeated? (name :: seen) rest

/-- Refuses a block in which a name is declared twice. -/
def checkNames (kind : NameKind) (block : String) (names : List String) : Except SchemaError Unit :=
  match firstRepeated? [] names with
  | some name => .error (.duplicate kind (block ++ "." ++ name))
  | none => .ok ()

/-- The attributes of a block, in order. -/
def blockAttributes {α : Type} (items : List (Item α)) : List Attribute :=
  items.filterMap fun
    | .blockAttribute a => some a
    | _ => none

/-! ## Models -/

namespace Model

def applyAttribute (m : Model) (a : Attribute) : Model :=
  if a.is "map" then { m with dbName := a.textArg? "name" }
  else if a.is "id" then
    { m with
      primaryKey := some ⟨(a.named? "name").bind Outline.Value.text?, a.nameListArg "fields"⟩ }
  else if a.is "unique" then
    let names := a.nameListArg "fields"
    if names.isEmpty then m else { m with uniqueFields := m.uniqueFields ++ [names] }
  else m

/-- Fields that hold the key of a relation of the same model are read-only. -/
def markReadOnly (m : Model) : Model :=
  let keys := m.fields.flatMap Field.relationFrom
  { m with
    fields := m.fields.map fun f => { f with isReadOnly := f.isReadOnly || keys.contains f.name } }

def ofItems (name : String) (documentation : Option String) (items : List (Item FieldDecl)) :
    Except SchemaError Model := do
  let fields := (Documentation.place items).map fun entry =>
    { Field.ofDecl entry.1 with documentation := entry.2 }
  checkNames .field name (fields.map Field.name)
  return ((blockAttributes items).foldl applyAttribute { name, fields, documentation }).markReadOnly

end Model

/-! ## Enums -/

/-- The database name given by `map` attributes, the last one of several. -/
def mappedName? (attributes : List Attribute) : Option String :=
  attributes.foldl (fun name a => if a.is "map" then a.textArg? "name" else name) none

namespace EnumType

def memberOf (entry : ValueDecl × Option String) : EnumMember where
  name := entry.1.name
  dbName := mappedName? entry.1.attributes
  documentation := entry.2

def ofItems (name : String) (documentation : Option String) (items : List (Item ValueDecl)) :
    Except SchemaError EnumType := do
  let members := (Documentation.place items).map memberOf
  checkNames .enumValue name (members.map EnumMember.name)
  return { name, members, dbName := mappedName? (blockAttributes items), documentation }

end EnumType

/-! ## Blocks -/

/-- A schema in the making. -/
structure Draft where
  schema : Schema := {}
  names : Namespace := {}
  /-- Composite types and views. -/
  skipped : List String := []
  /-- Documentation waiting for the next block. -/
  pending : Option String := none

namespace Draft

def addBlock (d : Draft) : Block → Except SchemaError Draft
  | .documentation lines => .ok { d with pending := some (Documentation.joinLines lines) }
  | .model name items => do
      let model ← Model.ofItems name d.pending items
      let names ← d.names.declare name .model
      return { d with schema := d.schema.addModel model, names, pending := none }
  | .enum name items => do
      let enum ← EnumType.ofItems name d.pending items
      let names ← d.names.declare name .enum
      return { d with schema := d.schema.addEnum enum, names, pending := none }
  | .config _ => .ok { d with pending := none }
  | .skipped _ name => .ok { d with skipped := name :: d.skipped, pending := none }

/-- What is said about a block that is not taken over. -/
def noticeOf? : Block → Option Notice
  | .config headline => some (.configBlockSkipped headline)
  | .skipped keyword name => some (.blockSkipped keyword name)
  | _ => none

/-- Takes blocks until one is refused; notices of the blocks before it remain. -/
def addBlocks (d : Draft) : List Block → List Notice × Except SchemaError Draft
  | [] => ([], .ok d)
  | b :: rest =>
      match d.addBlock b with
      | .error e => ([], .error e)
      | .ok next =>
          let later := next.addBlocks rest
          ((noticeOf? b).toList ++ later.1, later.2)

/-! ## Kinds -/

/-- The relation between two models that has no name of its own: both names in order. -/
def relationNameOf (a b : String) : String :=
  if a ≤ b then a ++ "To" ++ b else b ++ "To" ++ a

/-- The kind of a field. A name that is declared nowhere counts as a scalar. -/
def kindOf (d : Draft) (f : Field) : FieldKind :=
  (d.names.resolve f.typeName).getD .scalar

def resolveField (d : Draft) (model : String) (f : Field) : Field :=
  let kind := d.kindOf f
  let relationName :=
    if kind = .object && f.relationName.isNone then some (relationNameOf model f.typeName)
    else f.relationName
  { f with kind, relationName }

/-- What is said about a field whose type name resolves to nothing. -/
def fieldNotice? (d : Draft) (model : String) (f : Field) : Option Notice :=
  match d.names.resolve f.typeName with
  | some _ => none
  | none =>
      if d.skipped.contains f.typeName then some (.compositeField model f.name f.typeName)
      else some (.unresolvedField model f.name f.typeName)

def resolveModel (d : Draft) (m : Model) : Model :=
  { m with fields := m.fields.map (d.resolveField m.name) }

def modelNotices (d : Draft) (m : Model) : List Notice :=
  m.fields.filterMap (d.fieldNotice? m.name)

/-- The finished schema. -/
def finish (d : Draft) : Schema :=
  { d.schema with models := d.schema.models.map d.resolveModel }

def finishNotices (d : Draft) : List Notice :=
  d.schema.models.flatMap d.modelNotices

end Draft

/-! ## Schemas -/

/-- A result with the notices given on the way to it. -/
structure Reading (ε α : Type) where
  notices : List Notice
  result : Except ε α

/-- The schema of an outline. -/
def Schema.ofOutline (blocks : List Block) : Reading SchemaError Schema :=
  match ({} : Draft).addBlocks blocks with
  | (notices, .error e) => ⟨notices, .error e⟩
  | (notices, .ok draft) =>
      let schema := draft.finish
      ⟨notices ++ draft.finishNotices ++ [.schemaParsed schema.summary], .ok schema⟩

end PrismaTypes
