import PrismaTypes.Proofs.Words
import PrismaTypes.Schema.OfOutline

/-!
# Canonical schema texts

A schema given by its declarations, its canonical text, and the schema that the declarations mean.

* `Canonical.Block` is a model or an enum with documentation lines and members; `WellFormed` asks
  for names and literals that the language can spell and for the rules of names.
* `Canonical.print` writes one member on a line, documentation on lines of its own above it.
* `Canonical.meaning` is the schema that the blocks declare. It is stated attribute by attribute,
  where of several attributes of a name the last one counts, and does not go through the reader.
-/

namespace PrismaTypes

open Grammar (isIdentifier IsDottedName IsNumberLiteral NoBoolean booleanWord quoted isLineBreak)
open Outline (Value Argument Attribute ValueDecl)

/-! ## Values -/

namespace Outline.Value

mutual

/-- Names and numbers are such that the language can spell them. -/
def WellSpelled : Value → Prop
  | text _ => True
  | number literal => IsNumberLiteral literal.toList
  | boolean _ => True
  | path name => IsDottedName name.toList ∧ NoBoolean name.toList
  | call name args => IsDottedName name.toList ∧ ArgsWellSpelled args
  | list items => ItemsWellSpelled items

def ItemsWellSpelled : List Value → Prop
  | [] => True
  | item :: items => item.WellSpelled ∧ ItemsWellSpelled items

def ArgsWellSpelled : List (Option String × Value) → Prop
  | [] => True
  | (name, value) :: args =>
      (∀ n ∈ name, isIdentifier n.toList = true) ∧ value.WellSpelled ∧ ArgsWellSpelled args

end

mutual

/-- All string literals inside. -/
def texts : Value → List String
  | text s => [s]
  | number _ | boolean _ | path _ => []
  | call _ args => argTexts args
  | list items => itemTexts items

def itemTexts : List Value → List String
  | [] => []
  | item :: items => item.texts ++ itemTexts items

def argTexts : List (Option String × Value) → List String
  | [] => []
  | (_, value) :: args => value.texts ++ argTexts args

end

mutual

/-- The value in the notation of the language; `quote` writes string literals. -/
def write (quote : List Char → List Char) : Value → List Char
  | text s => quote s.toList
  | number literal => literal.toList
  | boolean b => booleanWord b
  | path name => name.toList
  | call name args =>
      name.toList ++ ['('] ++ Text.joinWith [',', ' '] (writeArgs quote args) ++ [')']
  | list items => ['['] ++ Text.joinWith [',', ' '] (writeItems quote items) ++ [']']

def writeItems (quote : List Char → List Char) : List Value → List (List Char)
  | [] => []
  | item :: items => item.write quote :: writeItems quote items

def writeArgs (quote : List Char → List Char) : List (Option String × Value) → List (List Char)
  | [] => []
  | (none, value) :: args => value.write quote :: writeArgs quote args
  | (some name, value) :: args =>
      (name.toList ++ [':', ' '] ++ value.write quote) :: writeArgs quote args

end

end Outline.Value

namespace Outline.Attribute

structure WellSpelled (a : Attribute) : Prop where
  name : IsDottedName a.name.toList
  args : Value.ArgsWellSpelled a.args

/-- The attribute after its at signs; brackets stand only around arguments. -/
def write (quote : List Char → List Char) (a : Attribute) : List Char :=
  a.name.toList ++
    if a.args.isEmpty then []
    else ['('] ++ Text.joinWith [',', ' '] (Value.writeArgs quote a.args) ++ [')']

end Outline.Attribute

/-! ## Declarations -/

namespace Canonical

inductive Modifier
  | plain
  | optional
  | list
  deriving DecidableEq, Repr

def Modifier.mark : Modifier → List Char
  | plain => []
  | optional => ['?']
  | list => ['[', ']']

structure FieldSpec where
  name : String
  typeName : String
  modifier : Modifier
  attributes : List Attribute

/-- A line in a block's braces, with the documentation above it. -/
inductive Member (α : Type)
  | entry (doc : List String) (decl : α)
  | blockAttribute (a : Attribute)

inductive Block
  | model (doc : List String) (name : String) (members : List (Member FieldSpec))
  | enum (doc : List String) (name : String) (members : List (Member ValueDecl))

/-- The declarations among the members, with their documentation. -/
def entries {α : Type} (members : List (Member α)) : List (List String × α) :=
  members.filterMap fun
    | .entry doc decl => some (doc, decl)
    | .blockAttribute _ => none

/-- The attributes among the members. -/
def attributesOf {α : Type} (members : List (Member α)) : List Attribute :=
  members.filterMap fun
    | .entry _ _ => none
    | .blockAttribute a => some a

namespace Block

def kind : Block → Declaration
  | model .. => .model
  | enum .. => .enum

def name : Block → String
  | model _ name _ | enum _ name _ => name

def doc : Block → List String
  | model doc _ _ | enum doc _ _ => doc

def entryNames : Block → List String
  | model _ _ members => (entries members).map (·.2.name)
  | enum _ _ members => (entries members).map (·.2.name)

end Block

/-! ## Well-formed declarations -/

/-- A line of documentation without blanks around it and without line breaks. -/
structure IsDocLine (line : String) : Prop where
  trimmed : Text.trim line.toList = line.toList
  unbroken : line.toList.any isLineBreak = false

structure FieldSpec.WellSpelled (f : FieldSpec) : Prop where
  name : isIdentifier f.name.toList = true
  typeName : isIdentifier f.typeName.toList = true
  attributes : ∀ a ∈ f.attributes, a.WellSpelled

/-- What is asked of an enum value. -/
structure ValueSpelled (v : ValueDecl) : Prop where
  name : isIdentifier v.name.toList = true
  attributes : ∀ a ∈ v.attributes, a.WellSpelled

def Member.WellSpelled {α : Type} (spelled : α → Prop) : Member α → Prop
  | entry doc decl => (∀ line ∈ doc, IsDocLine line) ∧ spelled decl
  | blockAttribute a => a.WellSpelled

def Block.WellSpelled : Block → Prop
  | model doc name members =>
      (∀ line ∈ doc, IsDocLine line) ∧ isIdentifier name.toList = true ∧
        ∀ m ∈ members, m.WellSpelled FieldSpec.WellSpelled
  | enum doc name members =>
      (∀ line ∈ doc, IsDocLine line) ∧ isIdentifier name.toList = true ∧
        ∀ m ∈ members, m.WellSpelled ValueSpelled

/-- Everything can be spelled, and names are neither reserved nor given twice. -/
structure WellFormed (blocks : List Block) : Prop where
  spelled : ∀ b ∈ blocks, b.WellSpelled
  free : ∀ b ∈ blocks, isReserved b.name = false
  distinct : (blocks.map Block.name).Nodup
  entries : ∀ b ∈ blocks, b.entryNames.Nodup

/-! ## The text -/

def docLines (indent : List Char) (doc : List String) : List Char :=
  doc.flatMap fun line => indent ++ (['/', '/', '/', ' '] ++ line.toList ++ ['\n'])

def attributesText (attributes : List Attribute) : List Char :=
  attributes.flatMap fun a => [' ', '@'] ++ a.write quoted

def FieldSpec.text (f : FieldSpec) : List Char :=
  f.name.toList ++ [' '] ++ f.typeName.toList ++ f.modifier.mark ++ attributesText f.attributes

def valueText (v : ValueDecl) : List Char :=
  v.name.toList ++ attributesText v.attributes

def indentation : List Char :=
  [' ', ' ']

def Member.text {α : Type} (write : α → List Char) : Member α → List Char
  | entry doc decl => docLines indentation doc ++ indentation ++ write decl ++ ['\n']
  | blockAttribute a => indentation ++ ['@', '@'] ++ a.write quoted ++ ['\n']

/-- A keyword, a name, and members in braces on lines of their own. -/
def bodyText (keyword : List Char) (name : String) (members : List Char) : List Char :=
  keyword ++ [' '] ++ name.toList ++ [' ', '\x7b', '\n'] ++ members ++ ['\x7d']

/-- The block without its documentation. -/
def Block.body : Block → List Char
  | model _ name members =>
      bodyText ['m', 'o', 'd', 'e', 'l'] name (members.flatMap (Member.text FieldSpec.text))
  | enum _ name members =>
      bodyText ['e', 'n', 'u', 'm'] name (members.flatMap (Member.text valueText))

def Block.text (b : Block) : List Char :=
  docLines [] b.doc ++ b.body ++ ['\n']

def textOf (blocks : List Block) : List Char :=
  blocks.flatMap Block.text

def print (blocks : List Block) : String :=
  String.ofList (textOf blocks)

/-! ## The meaning -/

/-- Documentation lines as one text. -/
def docOf (doc : List String) : Option String :=
  if doc.isEmpty then none else some ("\n".intercalate doc)

/-- The last attribute of the given name. -/
def last? (attributes : List Attribute) (name : String) : Option Attribute :=
  attributes.reverse.find? (·.is name)

/-- What the last attribute of the given name that says something says. -/
def lastOf? {β : Type} (attributes : List Attribute) (name : String) (f : Attribute → Option β) :
    Option β :=
  (attributes.filter (·.is name)).reverse.findSome? f

def mapped? (attributes : List Attribute) : Option String :=
  (last? attributes "map").bind (·.textArg? "name")

/-- The database type that an attribute stands for. -/
def nativeType? (a : Attribute) : Option NativeType :=
  (nativeName? a.name).map fun name => ⟨name, a.args.map fun arg => nativeArg arg.2⟩

/-- A field with all of its attributes. -/
def withAttributes (f : Field) (attributes : List Attribute) : Field :=
  { f with
    isUnique := attributes.any (·.is "unique")
    isId := attributes.any (·.is "id")
    isUpdatedAt := attributes.any (·.is "updatedAt")
    hasDefault := attributes.any (·.is "default")
    default := (last? attributes "default").bind fun a => a.first?.map Default.ofValue
    dbName := mapped? attributes
    nativeType := attributes.reverse.findSome? nativeType?
    relationName := lastOf? attributes "relation" (·.textArg? "name")
    relationFrom :=
      (lastOf? attributes "relation" fun a => (a.named? "fields").map Value.nameList).getD []
    relationTo :=
      (lastOf? attributes "relation" fun a => (a.named? "references").map Value.nameList).getD []
    onDelete := (last? attributes "relation").bind (·.pathArg? "onDelete")
    onUpdate := (last? attributes "relation").bind (·.pathArg? "onUpdate") }

/-- What a type name refers to among the blocks; a name that none of them declares is a scalar. -/
def kindIn (blocks : List Block) (typeName : String) : FieldKind :=
  ((blocks.find? (·.name = typeName)).map (·.kind.fieldKind)).getD .scalar

/-- A field without regard to the rest of the schema. -/
def fieldAlone (entry : List String × FieldSpec) : Field :=
  withAttributes
    { name := entry.2.name
      kind := .scalar
      isList := entry.2.modifier = .list
      isRequired := entry.2.modifier ≠ .optional
      typeName := entry.2.typeName
      documentation := docOf entry.1 } entry.2.attributes

/-- A field of a model. Fields that hold the key of a relation are read-only, and a relation to a
model that has no name gets one. -/
def fieldMeaning (kind : String → FieldKind) (model : String) (fields : List Field) (f : Field) :
    Field :=
  { f with
    kind := kind f.typeName
    isReadOnly := fields.any (·.relationFrom.contains f.name)
    relationName :=
      if kind f.typeName = .object then
        some (f.relationName.getD (Draft.relationNameOf model f.typeName))
      else f.relationName }

def modelMeaning (kind : String → FieldKind) (doc : List String) (name : String)
    (members : List (Member FieldSpec)) : Model where
  name := name
  dbName := mapped? (attributesOf members)
  fields :=
    let fields := (entries members).map fieldAlone
    fields.map (fieldMeaning kind name fields)
  primaryKey := (last? (attributesOf members) "id").map fun a =>
    ⟨(a.named? "name").bind Value.text?, a.nameListArg "fields"⟩
  uniqueFields := (((attributesOf members).filter (·.is "unique")).map
    (·.nameListArg "fields")).filter (!·.isEmpty)
  documentation := docOf doc

def enumMeaning (doc : List String) (name : String) (members : List (Member ValueDecl)) :
    EnumType where
  name := name
  members := (entries members).map fun entry =>
    { name := entry.2.name, dbName := mapped? entry.2.attributes, documentation := docOf entry.1 }
  dbName := mapped? (attributesOf members)
  documentation := docOf doc

/-- The model that a block declares, with the given meaning of type names. -/
def Block.model? (kind : String → FieldKind) : Block → Option Model
  | model doc name members => some (modelMeaning kind doc name members)
  | enum .. => none

def Block.enum? : Block → Option EnumType
  | model .. => none
  | enum doc name members => some (enumMeaning doc name members)

/-- The schema that the blocks declare. -/
def meaning (blocks : List Block) : Schema where
  models := blocks.filterMap (Block.model? (kindIn blocks))
  enums := blocks.filterMap Block.enum?

end Canonical
end PrismaTypes
