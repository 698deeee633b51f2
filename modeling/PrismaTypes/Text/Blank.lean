/-!
# Blank characters and lines

Texts are handled as lists of characters. This module fixes

- which characters are blank (`isBlank`), and trimming by them;
- how a text falls into lines (`lines`);
- joining pieces with a separator between neighbours (`joinWith`).
-/

namespace PrismaTypes
namespace Text

/-! ## Ranges of code points -/

/-- The character's code point lies in one of the closed ranges. -/
def inRanges (ranges : List (Nat × Nat)) (c : Char) : Bool :=
  ranges.any fun r => r.1 ≤ c.toNat && c.toNat ≤ r.2

/-! ## Blank characters -/

/-- Code points with the white space property. -/
def blankRanges : List (Nat × Nat) :=
  [(0x0009, 0x000D), (0x0020, 0x0020), (0x0085, 0x0085), (0x00A0, 0x00A0), (0x1680, 0x1680),
   (0x2000, 0x200A), (0x2028, 0x2029), (0x202F, 0x202F), (0x205F, 0x205F), (0x3000, 0x3000)]

def isBlank (c : Char) : Bool :=
  inRanges blankRanges c

def trimStart (s : List Char) : List Char :=
  s.dropWhile isBlank

def trimEnd (s : List Char) : List Char :=
  (s.reverse.dropWhile isBlank).reverse

def trim (s : List Char) : List Char :=
  trimEnd (trimStart s)

/-! ## Lines -/

/-- A carriage return that ends a line belongs to its line break. The line is given reversed. -/
def dropReturn : List Char → List Char
  | '\r' :: line => line
  | line => line

/-- The lines of a text whose current line, reversed, is already read. -/
def linesFrom (line : List Char) : List Char → List (List Char)
  | [] => if line.isEmpty then [] else [line.reverse]
  | c :: rest =>
      if c = '\n' then (dropReturn line).reverse :: linesFrom [] rest
      else linesFrom (c :: line) rest

/-- A line feed ends a line, together with one carriage return right before it; nothing after the
last line feed is no line. -/
def lines (s : List Char) : List (List Char) :=
  linesFrom [] s

/-! ## Joining -/

def joinWith (separator : List Char) : List (List Char) → List Char
  | [] => []
  | [piece] => piece
  | piece :: rest => piece ++ separator ++ joinWith separator rest

end Text
end PrismaTypes
