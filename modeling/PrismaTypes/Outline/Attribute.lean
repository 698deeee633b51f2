import PrismaTypes.Text.Quoted
import PrismaTypes.Text.Blank

/-!
# Attributes

An attribute as written in a schema: a name and arguments, which may have names themselves. Values
keep their written kind; `Value.render` shows a value in the notation of the schema language.
-/

namespace PrismaTypes
namespace Outline

inductive Value
  /-- A string literal, unescaped. -/
  | text (s : String)
  /-- A number literal as written. -/
  | number (literal : String)
  | boolean (b : Bool)
  /-- A bare or dotted name. -/
  | path (name : String)
  | call (name : String) (args : List (Option String × Value))
  | list (items : List Value)
  deriving Inhabited

/-- An argument is named or positional. -/
abbrev Argument := Option String × Value

structure Attribute where
  /-- Without the leading at signs. -/
  name : String
  args : List Argument

namespace Value

def text? : Value → Option String
  | text s => some s
  | _ => none

def path? : Value → Option String
  | path p => some p
  | _ => none

/-- The name that an item of a list of field names stands for. -/
def itemName? : Value → Option String
  | path p => some p
  | call name _ => some name
  | _ => none

/-- The value as a list of field names: `[a, b(sort: Desc)]` names `a` and `b`, and a bare name
names itself. -/
def nameList : Value → List String
  | list items => items.filterMap itemName?
  | path p => [p]
  | _ => []

mutual

def render : Value → List Char
  | text s => Text.quote s.toList
  | number literal => literal.toList
  | boolean true => ['t', 'r', 'u', 'e']
  | boolean false => ['f', 'a', 'l', 's', 'e']
  | path name => name.toList
  | call name args => name.toList ++ ['('] ++ Text.joinWith [',', ' '] (renderArgs args) ++ [')']
  | list items => ['['] ++ Text.joinWith [',', ' '] (renderItems items) ++ [']']

def renderItems : List Value → List (List Char)
  | [] => []
  | item :: items => item.render :: renderItems items

def renderArgs : List (Option String × Value) → List (List Char)
  | [] => []
  | (none, value) :: args => value.render :: renderArgs args
  | (some name, value) :: args => (name.toList ++ [':', ' '] ++ value.render) :: renderArgs args

end

def display (v : Value) : String :=
  String.ofList v.render

end Value

namespace Attribute

def is (a : Attribute) (name : String) : Bool :=
  a.name == name

/-- The first positional argument. -/
def first? (a : Attribute) : Option Value :=
  (a.args.find? (·.1.isNone)).map (·.2)

/-- The first argument of the given name. -/
def named? (a : Attribute) (name : String) : Option Value :=
  (a.args.find? (·.1 == some name)).map (·.2)

/-- The argument of the given name, or else the first positional one. -/
def namedOrFirst? (a : Attribute) (name : String) : Option Value :=
  (a.named? name).or a.first?

def textArg? (a : Attribute) (name : String) : Option String :=
  (a.namedOrFirst? name).bind Value.text?

def pathArg? (a : Attribute) (name : String) : Option String :=
  (a.named? name).bind Value.path?

def nameListArg (a : Attribute) (name : String) : List String :=
  ((a.namedOrFirst? name).map Value.nameList).getD []

end Attribute

/-! ## String literals -/

/-- The characters that the inside of a string literal stands for. A backslash makes a line feed of
`n`, a tab of `t`, and any other character of itself. -/
def unescape : List Char → List Char
  | [] => []
  | ['\\'] => ['\\']
  | '\\' :: c :: rest => (if c = 'n' then '\n' else if c = 't' then '\t' else c) :: unescape rest
  | c :: rest => c :: unescape rest

/-- The inside of a literal between double quotes; any other text is left as it is. -/
def inside (literal : List Char) : List Char :=
  match literal with
  | '\"' :: rest => if rest.getLast? = some '\"' then rest.dropLast else literal
  | _ => literal

def unquote (literal : List Char) : List Char :=
  unescape (inside literal)

end Outline
end PrismaTypes
