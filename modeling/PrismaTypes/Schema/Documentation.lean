import PrismaTypes.Outline.Basic

/-!
# Placing documentation

Documentation lines belong to the declaration after them, except that a line which starts on the row
on which a declaration ends trails that declaration. A block attribute in between cuts the lines
off.
-/

namespace PrismaTypes
namespace Documentation

open Outline (DocLine Item)

/-- Lines as one text. -/
def joinLines (lines : List DocLine) : String :=
  "\n".intercalate (lines.map DocLine.text)

/-- The lines before a declaration; `none` when there are none. -/
def leading? (lines : List DocLine) : Option String :=
  if lines.isEmpty then none else some (joinLines lines)

/-- Splits a run of lines after a declaration that ended on `row`, if there was one, into the text
that trails the declaration and the text for the next one. A trailing line without text is lost. -/
def split (row : Option Nat) : List DocLine → Option String × Option String
  | [] => (none, none)
  | line :: rest =>
      if row = some line.row then
        (if line.text.isEmpty then none else some line.text, leading? rest)
      else (none, leading? (line :: rest))

/-- Adds a line at the end of a documentation. -/
def append (doc : Option String) (text : String) : Option String :=
  match doc with
  | some present => some (present ++ "\n" ++ text)
  | none => some text

/-- Adds trailing text to the latest declaration, the first one of the list. -/
def trail {α : Type} (text : Option String) :
    List (α × Option String) → List (α × Option String)
  | [] => []
  | (decl, doc) :: rest =>
      match text with
      | some t => (decl, append doc t) :: rest
      | none => (decl, doc) :: rest

/-- The declarations of a block with their documentation. `pending` is the text waiting for the next
declaration, `row` the row on which the latest one ended, and `done` lists the declarations so far,
latest first. -/
def placeFrom {α : Type} (pending : Option String) (row : Option Nat)
    (done : List (α × Option String)) : List (Item α) → List (α × Option String)
  | [] => done.reverse
  | .documentation lines :: rest =>
      let parts := split row lines
      placeFrom parts.2 none (trail parts.1 done) rest
  | .entry decl lastRow :: rest => placeFrom none (some lastRow) ((decl, pending) :: done) rest
  | .blockAttribute _ :: rest => placeFrom none none done rest

def place {α : Type} (items : List (Item α)) : List (α × Option String) :=
  placeFrom none none [] items

end Documentation
end PrismaTypes
