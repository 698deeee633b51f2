import PrismaTypes.Config.Mapping
import PrismaTypes.Json.Printer

/-!
# Configurations

What a run is to do: where to read and write, and how declarations are to look.
-/

namespace PrismaTypes

/-- How models are declared. -/
inductive ModelStyle
  | interfaces
  | typeAliases
  deriving DecidableEq, Repr

namespace ModelStyle

def all : List ModelStyle :=
  [interfaces, typeAliases]

def word : ModelStyle → String
  | interfaces => "interface"
  | typeAliases => "type"

def ofWord? (s : String) : Option ModelStyle :=
  all.find? (·.word == s)

end ModelStyle

/-- How enums are declared. -/
inductive EnumStyle
  | enums
  | unions
  deriving DecidableEq, Repr

namespace EnumStyle

def all : List EnumStyle :=
  [enums, unions]

def word : EnumStyle → String
  | enums => "enum"
  | unions => "type"

def ofWord? (s : String) : Option EnumStyle :=
  all.find? (·.word == s)

end EnumStyle

/-- The defaults of the fields make up the default configuration. -/
structure Config where
  /-- Where editors find a description of the configuration file. -/
  schemaUrl : Option String := none
  modelStyle : ModelStyle := .interfaces
  enumStyle : EnumStyle := .enums
  outputFile : String := "./src/interfaces/database.ts"
  schemaFile : String := "./prisma/schema.prisma"
  writeMetadata : Bool := false
  /-- Relation fields are declared optional, whatever the schema says. -/
  relationsOptional : Bool := true
  mapping : TypeMapping := .standard
  deriving DecidableEq, Repr

namespace Config

/-- The file in the working directory that is read when no other is named. -/
def fileName : String :=
  "prisma-extractor.json"

/-- The members of the document that describes a configuration. -/
def toMembers (c : Config) : List (String × Json.Value) :=
  (c.schemaUrl.map fun url => ("$schema", Json.Value.text url)).toList
    ++ [("outputType", .text c.modelStyle.word),
        ("enumOutputType", .text c.enumStyle.word),
        ("outputFile", .text c.outputFile),
        ("prismaSchema", .text c.schemaFile),
        ("generateMetadata", .bool c.writeMetadata),
        ("relationFieldsOptional", .bool c.relationsOptional),
        ("mapTypes", .object (c.mapping.entries.map fun e => (e.1, .text e.2)))]

def toJson (c : Config) : Json.Value :=
  .object c.toMembers

/-- The document of a configuration. -/
def render (c : Config) : String :=
  c.toJson.pretty

end Config

end PrismaTypes
