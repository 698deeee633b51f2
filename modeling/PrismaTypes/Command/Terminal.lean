/-!
# Terminal lines

How a run looks on a terminal. Colours are always on.
-/

namespace PrismaTypes
namespace Terminal

def escape : String :=
  "\x1b["

inductive Colour
  | red
  | green
  | yellow
  | cyan
  deriving DecidableEq, Repr

def Colour.number : Colour → String
  | red => "31"
  | green => "32"
  | yellow => "33"
  | cyan => "36"

def coloured (c : Colour) (s : String) : String :=
  escape ++ c.number ++ "m" ++ s ++ escape ++ "39m"

def bold (s : String) : String :=
  escape ++ "1m" ++ s ++ escape ++ "0m"

def dimmed (s : String) : String :=
  escape ++ "2m" ++ s ++ escape ++ "0m"

/-- A title with a rule below it and blank lines around. -/
def header (title : String) : List String :=
  ["", coloured .cyan (bold title), dimmed ("".pushn '─' title.length), ""]

def keyValue (key value : String) : String :=
  "  " ++ dimmed key ++ ": " ++ value

def step (current total : Nat) (s : String) : String :=
  dimmed ("[" ++ toString current ++ "/" ++ toString total ++ "]") ++ " " ++ s

/-- A line with a mark in front of it. -/
def marked (c : Colour) (mark s : String) : String :=
  bold (coloured c mark) ++ " " ++ coloured c s

def success (s : String) : String :=
  marked .green "✔" s

def warning (s : String) : String :=
  marked .yellow "⚠" s

def failure (s : String) : String :=
  marked .red "✖" s

/-- What a failure comes from. -/
def cause (s : String) : String :=
  "  " ++ dimmed "caused by:" ++ " " ++ s

end Terminal
end PrismaTypes
