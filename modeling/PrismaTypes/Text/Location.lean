/-!
# Places in a text

Offsets count bytes of the UTF-8 form, rows count from one and columns count characters from one.
Only a line feed starts a new row, so the row of a place is read off the text before it.
-/

namespace PrismaTypes
namespace Text

/-- Size of the UTF-8 form. -/
def byteLength : List Char → Nat
  | [] => 0
  | c :: rest => c.utf8Size + byteLength rest

/-- Number of line feeds. -/
def lineFeeds (s : List Char) : Nat :=
  s.count '\n'

/-- Offset and row of a place; `{}` is the start of a text. -/
structure Place where
  offset : Nat := 0
  row : Nat := 1
  deriving DecidableEq, Repr

/-- The place after reading `taken`. -/
def Place.advance (p : Place) (taken : List Char) : Place where
  offset := p.offset + byteLength taken
  row := p.row + lineFeeds taken

/-- Splits after `n` bytes; a character that straddles the cut goes to the right. -/
def splitAtByte (n : Nat) : List Char → List Char × List Char
  | [] => ([], [])
  | c :: rest =>
      if c.utf8Size ≤ n then
        let cut := splitAtByte (n - c.utf8Size) rest
        (c :: cut.1, cut.2)
      else ([], c :: rest)

/-- The part after the last line feed. -/
def lastLine (s : List Char) : List Char :=
  (s.reverse.takeWhile (· ≠ '\n')).reverse

/-- The text up to its first line feed, which is included. -/
def throughLineFeed : List Char → List Char
  | [] => []
  | c :: rest => if c = '\n' then [c] else c :: throughLineFeed rest

end Text
end PrismaTypes
