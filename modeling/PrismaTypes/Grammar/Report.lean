import PrismaTypes.Grammar.Match
import PrismaTypes.Text.Blank

/-!
# Failure reports

The report of a refused text quotes the line of the failure, points below it at the column, and says
which rules were expected.
-/

namespace PrismaTypes
namespace Grammar

/-- Names in a sentence: `a`, `a or b`, `a, b, or c`. -/
def enumerate : List String → String
  | [] => ""
  | [a] => a
  | [a, b] => a ++ " or " ++ b
  | names => ", ".intercalate names.dropLast ++ ", or " ++ names.getLastD ""

namespace Failure

def message (f : Failure) : String :=
  if f.expected.isEmpty then "unknown parsing error"
  else "expected " ++ enumerate (f.expected.map Rule.name)

/-- Line breaks are shown by symbols when the failure is at one, and left out otherwise. -/
def visibleLine (atBreak : Bool) (line : List Char) : List Char :=
  if atBreak then line.map fun c => if c = '\r' then '␍' else if c = '\n' then '␊' else c
  else line.filter (!isLineBreak ·)

/-- Blanks below the first characters of a line; tabs stay tabs, so that the columns agree. -/
def indentBelow (columns : Nat) (line : List Char) : List Char :=
  (line.take columns).map fun c => if c = '\t' then '\t' else ' '

/-- The whole report for a failure in `input`. -/
def report (f : Failure) (input : List Char) : String :=
  let (before, after) := Text.splitAtByte f.offset input
  let start := Text.lastLine before
  let row := toString (1 + Text.lineFeeds before)
  let line := visibleLine (after.head?.any isLineBreak) (start ++ Text.throughLineFeed after)
  let margin := "".pushn ' ' row.length
  "\n".intercalate
    [margin ++ "--> " ++ row ++ ":" ++ toString (start.length + 1),
     margin ++ " |",
     row ++ " | " ++ String.ofList line,
     margin ++ " | " ++ String.ofList (indentBelow start.length line) ++ "^---",
     margin ++ " |",
     margin ++ " = " ++ f.message]

end Failure

end Grammar
end PrismaTypes
