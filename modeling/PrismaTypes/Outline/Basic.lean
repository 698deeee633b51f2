import PrismaTypes.Outline.Attribute

/-!
# Outlines

The outline of a schema text: its blocks in order, with names, attributes and documentation lines,
and nothing looked up yet. Rows are kept where the placement of documentation depends on them.
-/

namespace PrismaTypes
namespace Outline

/-- A documentation line: its row and its text without blanks around it. -/
structure DocLine where
  row : Nat
  text : String
  deriving DecidableEq, Repr

structure FieldDecl where
  name : String
  typeName : String
  isList : Bool
  isOptional : Bool
  attributes : List Attribute

structure ValueDecl where
  name : String
  attributes : List Attribute

/-- An item in a block's braces. -/
inductive Item (α : Type)
  | documentation (lines : List DocLine)
  /-- A declaration and the row on which its own text ends. -/
  | entry (decl : α) (lastRow : Nat)
  | blockAttribute (a : Attribute)

inductive Block
  | documentation (lines : List DocLine)
  | model (name : String) (items : List (Item FieldDecl))
  | enum (name : String) (items : List (Item ValueDecl))
  /-- A block that configures other tools, by its first line. -/
  | config (headline : String)
  /-- A composite type or a view. -/
  | skipped (keyword name : String)

end Outline
end PrismaTypes
