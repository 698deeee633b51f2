import PrismaTypes.TypeScript.DocComment
import PrismaTypes.Schema.Basic
import PrismaTypes.Config.Basic
import PrismaTypes.Text.Location

/-!
# Declarations

TypeScript declarations for the enums and models of a schema, under a fixed heading. Enums come
first; each declaration follows a blank line.
-/

namespace PrismaTypes
namespace TypeScript

/-! ## Members -/

/-- The type name of a field, without the mark of a list. -/
def targetType (mapping : TypeMapping) (f : Field) : String :=
  match f.kind with
  | .scalar => mapping.resolve f.typeName
  | .enum => f.typeName
  | .object => f.typeName

/-- The field is declared with a question mark. -/
def rendersOptional (relationsOptional : Bool) (f : Field) : Bool :=
  !f.isRequired || (f.isRelation && relationsOptional)

/-- A field as a member, such as `posts?: Post[]`. -/
def member (c : Config) (f : Field) : String :=
  f.name ++ (if rendersOptional c.relationsOptional f then "?" else "") ++ ": "
    ++ targetType c.mapping f ++ (if f.isList then "[]" else "")

/-! ## Blocks -/

def memberIndent : List Char :=
  [' ', ' ']

def enumMemberLine (m : EnumMember) : List Char :=
  docComment m.documentation memberIndent
    ++ memberIndent ++ (m.name ++ " = \"" ++ m.name ++ "\",\n").toList

/-- The members of an enum as a union of texts. -/
def unionOf (members : List EnumMember) : String :=
  if members.isEmpty then "never"
  else " | ".intercalate (members.map fun m => "\"" ++ m.name ++ "\"")

def enumBlock (style : EnumStyle) (e : EnumType) : List Char :=
  docComment e.documentation [] ++
    match style with
    | .enums =>
        ("export enum " ++ e.name ++ " \x7b\n").toList ++ e.members.flatMap enumMemberLine
          ++ "\x7d\n".toList
    | .unions => ("export type " ++ e.name ++ " = " ++ unionOf e.members ++ ";\n").toList

def modelHead (style : ModelStyle) (name : String) : String :=
  match style with
  | .interfaces => "export interface " ++ name ++ " \x7b\n"
  | .typeAliases => "export type " ++ name ++ " = \x7b\n"

def fieldLine (c : Config) (f : Field) : List Char :=
  docComment f.documentation memberIndent ++ memberIndent ++ (member c f ++ ";\n").toList

def modelBlock (c : Config) (m : Model) : List Char :=
  docComment m.documentation [] ++ (modelHead c.modelStyle m.name).toList
    ++ m.fields.flatMap (fieldLine c) ++ "\x7d\n".toList

/-! ## Files -/

/-- The first lines of every generated file. -/
def heading : String :=
  "// This file is auto-generated by prisma-extractor.\n// Do not edit this file directly.\n"

/-- The declarations of a schema. -/
def emitChars (c : Config) (s : Schema) : List Char :=
  heading.toList
    ++ s.enums.flatMap (fun e => '\n' :: enumBlock c.enumStyle e)
    ++ s.models.flatMap (fun m => '\n' :: modelBlock c m)

def emit (c : Config) (s : Schema) : String :=
  String.ofList (emitChars c s)

end TypeScript
end PrismaTypes
