import PrismaTypes.Json.Value
import PrismaTypes.Decimal.Layout

/-!
# Writing JSON

The compact form has no blanks at all; the pretty form puts every item on a line of its own,
indented by two spaces a level. Empty lists and objects are closed at once in both.
-/

namespace PrismaTypes
namespace Json

/-! ## Numbers and texts -/

/-- Exponents from -5 to 15 are written positionally, and a positive exponent has a plus sign. -/
def numberLayout : Decimal.Layout :=
  ⟨-5, 15, ['+']⟩

def Number.render : Number → List Char
  | .whole n => Decimal.intDigits n
  | .double d => d.render numberLayout

/-- A lower-case hexadecimal digit. -/
def hexDigit (n : Nat) : Char :=
  if n < 10 then Char.ofNat ('0'.toNat + n) else Char.ofNat ('a'.toNat + (n - 10))

/-- The written form of one character inside the quotes. -/
def escapeChar (c : Char) : List Char :=
  if c = '\"' then ['\\', '\"']
  else if c = '\\' then ['\\', '\\']
  else if c = '\x08' then ['\\', 'b']
  else if c = '\x0c' then ['\\', 'f']
  else if c = '\n' then ['\\', 'n']
  else if c = '\r' then ['\\', 'r']
  else if c = '\t' then ['\\', 't']
  else if c.toNat < 0x20 then
    ['\\', 'u', '0', '0', hexDigit (c.toNat / 16), hexDigit (c.toNat % 16)]
  else [c]

/-- A text between quotes, in front of `rest`. -/
def renderText (s : String) (rest : List Char) : List Char :=
  '\"' :: (s.toList.flatMap escapeChar ++ '\"' :: rest)

/-! ## Values -/

/-- What separates items: nothing in the compact form, line breaks in the pretty one. -/
inductive Style
  | compact
  | pretty
  deriving DecidableEq, Repr

namespace Style

/-- The break before an item at a level of nesting. -/
def lineAt : Style → Nat → List Char
  | compact, _ => []
  | pretty, level => '\n' :: List.replicate (2 * level) ' '

def colon : Style → List Char
  | compact => [':']
  | pretty => [':', ' ']

end Style

/-! Values are written in front of a text, so that nothing is copied twice. -/

mutual

/-- Writes a value at a level of nesting in front of `rest`. -/
def Value.render (style : Style) : Nat → Value → List Char → List Char
  | _, .null, rest => ['n', 'u', 'l', 'l'] ++ rest
  | _, .bool true, rest => ['t', 'r', 'u', 'e'] ++ rest
  | _, .bool false, rest => ['f', 'a', 'l', 's', 'e'] ++ rest
  | _, .number n, rest => n.render ++ rest
  | _, .text s, rest => renderText s rest
  | _, .list [], rest => '[' :: ']' :: rest
  | level, .list (item :: items), rest =>
      '[' :: (style.lineAt (level + 1)
        ++ item.render style (level + 1) (renderItems style level items rest))
  | _, .object [], rest => '\x7b' :: '\x7d' :: rest
  | level, .object ((key, value) :: members), rest =>
      '\x7b' :: (style.lineAt (level + 1) ++ renderText key (style.colon
        ++ value.render style (level + 1) (renderMembers style level members rest)))

/-- The items after the first one, and the closing bracket. -/
def renderItems (style : Style) : Nat → List Value → List Char → List Char
  | level, [], rest => style.lineAt level ++ ']' :: rest
  | level, item :: items, rest =>
      ',' :: (style.lineAt (level + 1)
        ++ item.render style (level + 1) (renderItems style level items rest))

/-- The members after the first one, and the closing brace. -/
def renderMembers (style : Style) : Nat → List (String × Value) → List Char → List Char
  | level, [], rest => style.lineAt level ++ '\x7d' :: rest
  | level, (key, value) :: members, rest =>
      ',' :: (style.lineAt (level + 1) ++ renderText key (style.colon
        ++ value.render style (level + 1) (renderMembers style level members rest)))

end

namespace Value

def pretty (v : Value) : String :=
  String.ofList (v.render .pretty 0 [])

def compact (v : Value) : String :=
  String.ofList (v.render .compact 0 [])

end Value

end Json
end PrismaTypes
