import PrismaTypes.Outline.Basic
import PrismaTypes.Grammar.Match

/-!
# Reading outlines

`ofNodes` turns the tree of a matched schema into its outline. A tree that lacks a part which the
grammar promises is a misfit.
-/

namespace PrismaTypes
namespace Outline

open Grammar (Node Rule)

/-! ## Misfits -/

inductive MisfitCause
  | missing (part : String)
  | unexpected (rule : Rule)
  | noTree
  deriving DecidableEq, Repr

/-- What is wrong with a tree, and the span of the text where it is. -/
structure Misfit where
  offset : Nat
  length : Nat
  cause : MisfitCause
  deriving DecidableEq, Repr

def MisfitCause.message : MisfitCause → String
  | missing part => "expected " ++ part
  | unexpected rule => "unexpected " ++ rule.name ++ " in attribute"
  | noTree => "empty parse"

def misfitAt (n : Node) (cause : MisfitCause) : Misfit :=
  ⟨n.place.offset, Text.byteLength n.text, cause⟩

def word (n : Node) : String :=
  String.ofList n.text

/-- The first child, which the grammar promises, and the children after it. -/
def firstChild (n : Node) (part : String) : Except Misfit (Node × List Node) :=
  match n.children with
  | [] => .error (misfitAt n (.missing part))
  | child :: rest => .ok (child, rest)

/-! ## Attributes -/

mutual

def readValue : Node → Except Misfit Value
  | .mk rule place text children =>
      match rule with
      | .stringLiteral => .ok (.text (String.ofList (unquote text)))
      | .numberLiteral => .ok (.number (String.ofList text))
      | .booleanLiteral => .ok (.boolean (text == ['t', 'r', 'u', 'e']))
      | .path => .ok (.path (String.ofList text))
      | .arrayLiteral => (readValues children).map .list
      | .functionCall =>
          match children with
          | [] => .error ⟨place.offset, Text.byteLength text, .missing "function name"⟩
          | [name] => .ok (.call (word name) [])
          | name :: .mk _ _ _ args :: _ => (readArgs args).map (.call (word name))
      | other => .error ⟨place.offset, Text.byteLength text, .unexpected other⟩

def readValues : List Node → Except Misfit (List Value)
  | [] => .ok []
  | n :: rest => do
      let value ← readValue n
      let values ← readValues rest
      return value :: values

/-- An argument is a value, or a name and a value. -/
def readArg : Node → Except Misfit Argument
  | .mk _ place text children =>
      match children with
      | [] => .error ⟨place.offset, Text.byteLength text, .missing "attribute argument"⟩
      | [first] =>
          if first.rule = .argName then
            .error ⟨place.offset, Text.byteLength text, .missing "argument value"⟩
          else (readValue first).map (none, ·)
      | first :: second :: _ =>
          if first.rule = .argName then (readValue second).map (some (word first), ·)
          else (readValue first).map (none, ·)

def readArgs : List Node → Except Misfit (List Argument)
  | [] => .ok []
  | n :: rest => do
      let arg ← readArg n
      let args ← readArgs rest
      return arg :: args

end

def readAttribute (n : Node) : Except Misfit Attribute := do
  let (name, rest) ← firstChild n "attribute name"
  match rest with
  | [] => return { name := word name, args := [] }
  | args :: _ => return { name := word name, args := ← readArgs args.children }

/-! ## Documentation -/

def readDocLine (n : Node) : DocLine where
  row := n.place.row
  text := String.ofList (Text.trim ((n.children.head?.map Node.text).getD []))

def readDocumentation (n : Node) : List DocLine :=
  n.children.map readDocLine

/-- The row on which a node's own text ends; blanks at its end belong to what follows. -/
def lastRow (n : Node) : Nat :=
  n.place.row + Text.lineFeeds (Text.trimEnd n.text)

/-! ## Declarations -/

/-- Type name, list mark and optional mark, gathered from the parts of a field type. -/
def readFieldType (parts : List Node) (decl : FieldDecl) : FieldDecl :=
  parts.foldl (fun decl part =>
    match part.rule with
    | .typeName => { decl with typeName := word part }
    | .unsupportedType => { decl with typeName := "Unsupported" }
    | .listMarker => { decl with isList := true }
    | .optionalMarker => { decl with isOptional := true }
    | _ => decl) decl

def readField (n : Node) : Except Misfit FieldDecl := do
  let (name, rest) ← firstChild n "field name"
  match rest with
  | [] => .error (misfitAt n (.missing "field type"))
  | fieldType :: rest =>
      let attributes ← (rest.filter (·.rule = .fieldAttribute)).mapM readAttribute
      return readFieldType fieldType.children
        { name := word name, typeName := "", isList := false, isOptional := false, attributes }

def readEnumValue (n : Node) : Except Misfit ValueDecl := do
  let (name, rest) ← firstChild n "enum value"
  return { name := word name, attributes := ← rest.mapM readAttribute }

/-- The items in a block's braces, where `entryRule` marks the declarations. -/
def readItems {α : Type} (entryRule : Rule) (readEntry : Node → Except Misfit α) :
    List Node → Except Misfit (List (Item α))
  | [] => .ok []
  | n :: rest => do
      if n.rule = .documentation then
        return .documentation (readDocumentation n) :: (← readItems entryRule readEntry rest)
      else if n.rule = entryRule then
        let entry ← readEntry n
        return .entry entry (lastRow n) :: (← readItems entryRule readEntry rest)
      else if n.rule = .blockAttribute then
        let a ← readAttribute n
        return .blockAttribute a :: (← readItems entryRule readEntry rest)
      else readItems entryRule readEntry rest

/-! ## Blocks -/

/-- The block of a node; the end of the input is none. -/
def readBlock (n : Node) : Except Misfit (Option Block) :=
  match n.rule with
  | .documentation => .ok (some (.documentation (readDocumentation n)))
  | .modelBlock => do
      let (name, rest) ← firstChild n "model name"
      return some (.model (word name) (← readItems .field readField rest))
  | .enumBlock => do
      let (name, rest) ← firstChild n "enum name"
      return some (.enum (word name) (← readItems .enumValue readEnumValue rest))
  | .configBlock => .ok (some (.config (String.ofList ((Text.lines n.text).headD []))))
  | .skippedBlock => do
      let (keyword, rest) ← firstChild n "block keyword"
      match rest with
      | [] => .error (misfitAt n (.missing "block name"))
      | name :: _ => return some (.skipped (word keyword) (word name))
  | _ => .ok none

def readBlocks : List Node → Except Misfit (List Block)
  | [] => .ok []
  | n :: rest => do
      let block ← readBlock n
      let blocks ← readBlocks rest
      return block.toList ++ blocks

/-- The outline of a schema of `size` bytes that matched with the given nodes. -/
def ofNodes (size : Nat) : List Node → Except Misfit (List Block)
  | [] => .error ⟨0, size, .noTree⟩
  | schema :: _ => readBlocks schema.children

end Outline
end PrismaTypes
