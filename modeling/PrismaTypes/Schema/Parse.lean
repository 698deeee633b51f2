import PrismaTypes.Schema.OfOutline

/-!
# Reading schema texts

The text is matched against the grammar, its tree is read as an outline, and the outline is made a
schema.
-/

namespace PrismaTypes
namespace Schema

/-- The outline of a schema text. -/
def outlineOf (input : List Char) : Except SchemaError (List Outline.Block) :=
  match Grammar.matchRule .schema input with
  | .error failure => .error (.refused input failure)
  | .ok nodes =>
      match Outline.ofNodes (Text.byteLength input) nodes with
      | .error m => .error (.misfit m)
      | .ok blocks => .ok blocks

def parseChars (input : List Char) : Reading SchemaError Schema :=
  match outlineOf input with
  | .error e => ⟨[], .error e⟩
  | .ok blocks => ofOutline blocks

def parse (text : String) : Reading SchemaError Schema :=
  parseChars text.toList

end Schema
end PrismaTypes
