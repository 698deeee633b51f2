import PrismaTypes.Json.Value
import PrismaTypes.Outline.Attribute

/-!
# Default values

The value of a field's `@default` attribute. Enum values and other bare names count as texts, and
the names of function arguments are dropped.
-/

namespace PrismaTypes

inductive Default
  | call (name : String) (args : List Default)
  | list (items : List Default)
  | boolean (b : Bool)
  | number (n : Json.Number)
  | text (s : String)
  deriving BEq

namespace Default

/-- A number literal as a number when it stands for a finite one, and as a text otherwise. -/
def ofNumberLiteral (literal : String) : Default :=
  match (Decimal.Numeral.read? literal.toList).bind Json.Number.ofNumeral? with
  | some n => number n
  | none => text literal

mutual

def ofValue : Outline.Value → Default
  | .text s => text s
  | .number literal => ofNumberLiteral literal
  | .boolean b => boolean b
  | .path name => text name
  | .call name args => call name (ofArgs args)
  | .list items => list (ofValues items)

def ofValues : List Outline.Value → List Default
  | [] => []
  | v :: rest => ofValue v :: ofValues rest

def ofArgs : List (Option String × Outline.Value) → List Default
  | [] => []
  | (_, v) :: rest => ofValue v :: ofArgs rest

end

end Default

end PrismaTypes
