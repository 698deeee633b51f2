import PrismaTypes.Files.Error
import PrismaTypes.Files.Path
import PrismaTypes.Text.Location

/-!
# File trees

Directories and files below a root, each under the list of names that leads to it. Operations take
paths as texts and find their place by walking: every segment but the last has to be a directory,
and two points lead back to the directory above. A path that is too long as a whole is refused
before the walk, a name that is too long when it is looked up in its directory.
-/

namespace PrismaTypes
namespace Files

inductive Content
  | text (s : String)
  /-- Bytes that are not UTF-8. -/
  | binary (bytes : List UInt8)
  deriving DecidableEq, Repr

inductive Entry
  | directory
  | file (content : Content)
  deriving DecidableEq, Repr

/-- Names from the root down. -/
abbrev Spot := List String

structure FileTree where
  entries : List (Spot × Entry) := []
  deriving DecidableEq, Repr

namespace FileTree

/-- What is at a spot; the root is always a directory. -/
def get? (t : FileTree) (spot : Spot) : Option Entry :=
  if spot.isEmpty then some .directory else (t.entries.find? (·.1 = spot)).map (·.2)

/-- Puts an entry at a spot, in place of the one there. -/
def set (t : FileTree) (spot : Spot) (entry : Entry) : FileTree :=
  ⟨t.entries.filter (·.1 ≠ spot) ++ [(spot, entry)]⟩

/-! ## Limits -/

/-- Bytes of the longest name. -/
def nameLimit : Nat := 255

/-- Bytes of the longest path. -/
def pathLimit : Nat := 4095

/-- Refuses a text that is no path at all. -/
def checkPath (path : String) : Except FileError Unit :=
  if path.toList.contains '\x00' then .error .nulInPath
  else if path.isEmpty then .error .notFound
  else if pathLimit < Text.byteLength path.toList then .error .nameTooLong
  else .ok ()

/-- The spot of a name in a directory, whether it exists or not. -/
def child (directory : Spot) (name : String) : Except FileError Spot :=
  if nameLimit < Text.byteLength name.toList then .error .nameTooLong
  else .ok (directory ++ [name])

/-! ## Walking -/

/-- The spot that segments lead to from a spot. The last one need not exist. -/
def walk (t : FileTree) (spot : Spot) : List String → Except FileError Spot
  | [] => .ok spot
  | segment :: rest =>
      match t.get? spot with
      | none => .error .notFound
      | some (.file _) => .error .notDirectory
      | some .directory =>
          if isIdle segment then t.walk spot rest
          else if segment = ".." then t.walk spot.dropLast rest
          else
            match child spot segment with
            | .error e => .error e
            | .ok below => t.walk below rest

/-- Where the walk along a path starts. -/
def origin (here : Spot) (path : String) : Spot :=
  if isAbsolute path then [] else here

/-- What a path leads to. -/
def stat (t : FileTree) (here : Spot) (path : String) : Except FileError Entry :=
  match checkPath path with
  | .error e => .error e
  | .ok () =>
      match t.walk (origin here path) (segments path) with
      | .error e => .error e
      | .ok spot =>
          match t.get? spot with
          | some entry => .ok entry
          | none => .error .notFound

def isThere (t : FileTree) (here : Spot) (path : String) : Bool :=
  match t.stat here path with
  | .ok _ => true
  | .error _ => false

def isFile (t : FileTree) (here : Spot) (path : String) : Bool :=
  match t.stat here path with
  | .ok (.file _) => true
  | _ => false

def isDirectory (t : FileTree) (here : Spot) (path : String) : Bool :=
  match t.stat here path with
  | .ok .directory => true
  | _ => false

/-! ## Reading and writing -/

def readText (t : FileTree) (here : Spot) (path : String) : Except FileError String :=
  match t.stat here path with
  | .error e => .error e
  | .ok .directory => .error .isDirectory
  | .ok (.file (.text s)) => .ok s
  | .ok (.file (.binary _)) => .error .notText

/-- The last segment of a path that is to be created. -/
inductive Target
  /-- A name in a directory; `slash` when a slash follows it. -/
  | name (directory : Spot) (name : String) (slash : Bool)
  /-- The path ends at a directory that is there: the root, one point or two. -/
  | present

/-- Walks to the directory of a path's last segment. -/
def target (t : FileTree) (here : Spot) (path : String) : Except FileError Target :=
  match checkPath path with
  | .error e => .error e
  | .ok () =>
      let segs := segments path
      let named := (segs.reverse.dropWhile (·.isEmpty)).reverse
      match named.getLast? with
      | none => .ok .present
      | some last =>
          match t.walk (origin here path) (named.dropLast ++ [""]) with
          | .error e => .error e
          | .ok directory =>
              if last = "." || last = ".." then .ok .present
              else .ok (.name directory last (named.length < segs.length))

/-- Writes a file, in place of the one there. -/
def write (t : FileTree) (here : Spot) (path : String) (content : Content) :
    Except FileError FileTree :=
  match t.target here path with
  | .error e => .error e
  | .ok .present => .error .isDirectory
  | .ok (.name directory name slash) =>
      if slash then .error .isDirectory
      else
        match child directory name with
        | .error e => .error e
        | .ok spot =>
            match t.get? spot with
            | some .directory => .error .isDirectory
            | _ => .ok (t.set spot (.file content))

def writeText (t : FileTree) (here : Spot) (path text : String) : Except FileError FileTree :=
  t.write here path (.text text)

/-- Makes one directory. -/
def makeDirectory (t : FileTree) (here : Spot) (path : String) : Except FileError FileTree :=
  match t.target here path with
  | .error e => .error e
  | .ok .present => .error .alreadyExists
  | .ok (.name directory name _) =>
      match child directory name with
      | .error e => .error e
      | .ok spot =>
          match t.get? spot with
          | some _ => .error .alreadyExists
          | none => .ok (t.set spot .directory)

/-- A directory that is there already is as good as a new one. -/
def ensure (t : FileTree) (here : Spot) (path : String) : FileTree × Except FileError Unit :=
  match t.makeDirectory here path with
  | .ok made => (made, .ok ())
  | .error e => (t, if t.isDirectory here path then .ok () else .error e)

/-- Makes a directory and the directories above it; `depth` bounds the number of those. Directories
that were made stay when a later one fails. -/
def makeAllWithin (t : FileTree) (here : Spot) : Nat → String → FileTree × Except FileError Unit
  | 0, _ => (t, .error .notFound)
  | depth + 1, path =>
      if path.isEmpty then (t, .ok ())
      else
        match t.makeDirectory here path with
        | .ok made => (made, .ok ())
        | .error .notFound =>
            match parent? path with
            | none => (t, .error .notFound)
            | some above =>
                match t.makeAllWithin here depth above with
                | (made, .ok ()) => made.ensure here path
                | (made, .error e) => (made, .error e)
        | .error e => (t, if t.isDirectory here path then .ok () else .error e)

def makeAll (t : FileTree) (here : Spot) (path : String) : FileTree × Except FileError Unit :=
  t.makeAllWithin here (path.length + 1) path

end FileTree
end Files
end PrismaTypes
