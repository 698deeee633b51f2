import PrismaTypes.Text.Hidden

/-!
# Quoted texts

A text shown between double quotes. Quote, backslash and the four common controls have short
escapes, every other hidden character is written by its code point in braces, and all else stands
for itself.
-/

namespace PrismaTypes
namespace Text

/-- Lower-case hexadecimal digits without leading zeros. -/
def hexDigits (n : Nat) : List Char :=
  Nat.toDigits 16 n

/-- The written form of one character inside the quotes. -/
def quoteChar (c : Char) : List Char :=
  if c = '\x00' then ['\\', '0']
  else if c = '\t' then ['\\', 't']
  else if c = '\r' then ['\\', 'r']
  else if c = '\n' then ['\\', 'n']
  else if c = '\"' then ['\\', '\"']
  else if c = '\\' then ['\\', '\\']
  else if isHidden c then ['\\', 'u', '\x7b'] ++ hexDigits c.toNat ++ ['\x7d']
  else [c]

def quote (s : List Char) : List Char :=
  ['\"'] ++ s.flatMap quoteChar ++ ['\"']

end Text
end PrismaTypes
