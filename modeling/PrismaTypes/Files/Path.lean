import PrismaTypes.Text.Blank

/-!
# Paths

Paths are texts with slashes between their segments. The rules here look at the text alone.
-/

namespace PrismaTypes
namespace Files

/-- The pieces between slashes; a text without slash is one piece. -/
def splitSlash : List Char → List (List Char)
  | [] => [[]]
  | c :: rest =>
      match splitSlash rest with
      | [] => [[c]]
      | piece :: pieces => if c = '/' then [] :: piece :: pieces else (c :: piece) :: pieces

def segments (path : String) : List String :=
  (splitSlash path.toList).map String.ofList

def ofSegments (segs : List String) : String :=
  "/".intercalate segs

def isAbsolute (path : String) : Bool :=
  path.toList.head? = some '/'

/-- Segments that lead nowhere. -/
def isIdle (segment : String) : Bool :=
  segment = "" || segment = "."

/-- The segments without the idle ones at the end, which count from the second segment on. -/
def dropIdleEnd (segs : List String) : List String :=
  segs.take 1 ++ ((segs.drop 1).reverse.dropWhile isIdle).reverse

/-- The directory part of a path. The root and the empty path have none. -/
def parent? (path : String) : Option String :=
  match dropIdleEnd (segments path) with
  | [] => none
  | [only] => if only.isEmpty then none else some ""
  | segs =>
      let above := dropIdleEnd segs.dropLast
      some (if above = [""] then "/" else ofSegments above)

/-- A path below a directory. -/
def join (directory name : String) : String :=
  if directory.isEmpty || directory.toList.getLast? = some '/' then directory ++ name
  else directory ++ "/" ++ name

/-- What an absolute path starts with; exactly two slashes are kept. -/
def rootOf (path : String) : String :=
  match path.toList with
  | '/' :: '/' :: '/' :: _ => "/"
  | '/' :: '/' :: _ => "//"
  | _ => "/"

/-- The path seen from the root, without idle segments. A final slash stays, and the empty path
stays empty. -/
def absolute (workingDirectory path : String) : String :=
  if path.isEmpty then ""
  else
    let base := if isAbsolute path then rootOf path else workingDirectory
    let whole := ((segments path).filter (!isIdle ·)).foldl join base
    if path.toList.getLast? = some '/' && whole.toList.getLast? ≠ some '/' then whole ++ "/"
    else whole

end Files
end PrismaTypes
