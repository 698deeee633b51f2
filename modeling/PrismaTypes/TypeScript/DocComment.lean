import PrismaTypes.Text.Blank

/-!
# Documentation comments

Documentation as a TypeScript comment. One line stands between the marks, several lines get a star
each. The mark that ends a comment is broken up inside it.
-/

namespace PrismaTypes
namespace TypeScript

/-- Puts a backslash into every `*/`. -/
def breakMarks : List Char → List Char
  | '*' :: '/' :: rest => '*' :: '\\' :: '/' :: breakMarks rest
  | c :: rest => c :: breakMarks rest
  | [] => []

/-- The lines of a comment, ready to be set. -/
def commentLines (doc : List Char) : List (List Char) :=
  (Text.lines (Text.trim doc)).map fun line => breakMarks (Text.trim line)

/-- One line in a comment of several lines. -/
def starred (indent line : List Char) : List Char :=
  if line.isEmpty then indent ++ " *\n".toList
  else indent ++ " * ".toList ++ line ++ ['\n']

/-- The comment for a documentation; blank or absent documentation gives none. -/
def docComment (doc : Option String) (indent : List Char) : List Char :=
  match commentLines ((doc.map String.toList).getD []) with
  | [] => []
  | [line] => indent ++ "/** ".toList ++ line ++ " */\n".toList
  | lines =>
      indent ++ "/**\n".toList ++ lines.flatMap (starred indent) ++ indent ++ " */\n".toList

end TypeScript
end PrismaTypes
