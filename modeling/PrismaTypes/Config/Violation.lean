import PrismaTypes.Config.Basic

/-!
# Rules for configuration documents

`violations` lists every broken rule of a document: those of the type mapping first, then those of
single properties, then unknown properties. A property that is absent breaks no rule.
-/

namespace PrismaTypes

inductive Violation
  | notAnObject
  | mapTypesNotAnObject
  | mapTypeNotText (name : String)
  | notText (key : String)
  | notBoolean (key : String)
  | invalidChoice (key value : String) (allowed : List String)
  | unknownKey (key : String)
  deriving DecidableEq, Repr

def Violation.message : Violation → String
  | notAnObject => "configuration must be a JSON object"
  | mapTypesNotAnObject => "mapTypes must be an object"
  | mapTypeNotText name => "mapTypes." ++ name ++ " must be a string"
  | notText key => key ++ " must be a string"
  | notBoolean key => key ++ " must be a boolean"
  | invalidChoice key value allowed =>
      key ++ " must be one of: " ++ ", ".intercalate allowed ++ " (found `" ++ value ++ "`)"
  | unknownKey key => "unexpected property `" ++ key ++ "`"

namespace Config

open Json (Value)

/-- The properties that a configuration may have. -/
def knownKeys : List String :=
  ["$schema", "outputType", "enumOutputType", "outputFile", "prismaSchema", "generateMetadata",
   "relationFieldsOptional", "mapTypes"]

def mappingViolations : Option Value → List Violation
  | none => []
  | some (.object entries) =>
      (entries.filter (!·.2.isText)).map fun e => .mapTypeNotText e.1
  | some _ => [.mapTypesNotAnObject]

def choiceViolations (key : String) (allowed : List String) : Option Value → List Violation
  | none => []
  | some (.text value) =>
      if allowed.contains value then [] else [.invalidChoice key value allowed]
  | some _ => [.notText key]

def textViolations (key : String) : Option Value → List Violation
  | none => []
  | some v => if v.isText then [] else [.notText key]

def booleanViolations (key : String) : Option Value → List Violation
  | none => []
  | some v => if v.isBool then [] else [.notBoolean key]

def memberViolations (members : List (String × Value)) : List Violation :=
  mappingViolations (Members.get? "mapTypes" members)
    ++ choiceViolations "outputType" (ModelStyle.all.map ModelStyle.word)
        (Members.get? "outputType" members)
    ++ choiceViolations "enumOutputType" (EnumStyle.all.map EnumStyle.word)
        (Members.get? "enumOutputType" members)
    ++ ["outputFile", "prismaSchema", "$schema"].flatMap
        (fun key => textViolations key (Members.get? key members))
    ++ ["generateMetadata", "relationFieldsOptional"].flatMap
        (fun key => booleanViolations key (Members.get? key members))
    ++ ((members.map (·.1)).filter (!knownKeys.contains ·)).map .unknownKey

/-- Every broken rule of a document. -/
def violations : Value → List Violation
  | .object members => memberViolations members
  | _ => [.notAnObject]

end Config

end PrismaTypes
