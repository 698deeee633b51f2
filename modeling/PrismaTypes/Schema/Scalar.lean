/-!
# Scalar types

The built-in types of the schema language.
-/

namespace PrismaTypes

inductive Scalar
  | string
  | int
  | float
  | bigInt
  | boolean
  | dateTime
  | json
  | decimal
  | bytes
  /-- A database type that the schema language cannot express. -/
  | unsupported
  deriving DecidableEq, Repr

namespace Scalar

/-- All scalars, in the order in which mappings list them. -/
def all : List Scalar :=
  [string, int, float, bigInt, boolean, dateTime, json, decimal, bytes, unsupported]

/-- The word for a scalar in a schema; case matters. -/
def keyword : Scalar → String
  | string => "String"
  | int => "Int"
  | float => "Float"
  | bigInt => "BigInt"
  | boolean => "Boolean"
  | dateTime => "DateTime"
  | json => "Json"
  | decimal => "Decimal"
  | bytes => "Bytes"
  | unsupported => "Unsupported"

def ofKeyword? (s : String) : Option Scalar :=
  all.find? (·.keyword == s)

end Scalar

end PrismaTypes
