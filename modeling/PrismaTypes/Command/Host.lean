import PrismaTypes.Files.Tree
import PrismaTypes.Notice

/-!
# Hosts

A run reads and writes files, prints lines and gives notices. `Host` is what it needs for that, and
`Workspace` is a host that is a plain value: a file tree, a spot in it, and all that was printed.
-/

namespace PrismaTypes

open Files (FileError FileTree Spot)

class Host (m : Type → Type) where
  workingDirectory : m String
  isThere : String → m Bool
  isFile : String → m Bool
  readText : String → m (Except FileError String)
  writeText : String → String → m (Except FileError Unit)
  /-- Makes a directory and those above it. -/
  makeAll : String → m (Except FileError Unit)
  /-- Prints a line for the user. -/
  print : String → m Unit
  /-- Prints a line about a failure. -/
  printError : String → m Unit
  notify : Notice → m Unit

structure Workspace where
  files : FileTree := {}
  /-- The working directory. -/
  here : Spot := []
  printed : List String := []
  errors : List String := []
  notices : List Notice := []

namespace Workspace

def directoryText (w : Workspace) : String :=
  "/" ++ Files.ofSegments w.here

def addPrinted (w : Workspace) (line : String) : Workspace :=
  { w with printed := w.printed ++ [line] }

def addError (w : Workspace) (line : String) : Workspace :=
  { w with errors := w.errors ++ [line] }

def addNotice (w : Workspace) (n : Notice) : Workspace :=
  { w with notices := w.notices ++ [n] }

def writeText (path content : String) (w : Workspace) : Except FileError Unit × Workspace :=
  match w.files.writeText w.here path content with
  | .ok files => (.ok (), { w with files })
  | .error e => (.error e, w)

def makeAll (path : String) (w : Workspace) : Except FileError Unit × Workspace :=
  let made := w.files.makeAll w.here path
  (made.2, { w with files := made.1 })

instance : Host (StateM Workspace) where
  workingDirectory := fun w => (w.directoryText, w)
  isThere path := fun w => (w.files.isThere w.here path, w)
  isFile path := fun w => (w.files.isFile w.here path, w)
  readText path := fun w => (w.files.readText w.here path, w)
  writeText path content := writeText path content
  makeAll path := makeAll path
  print line := fun w => ((), w.addPrinted line)
  printError line := fun w => ((), w.addError line)
  notify n := fun w => ((), w.addNotice n)

end Workspace

end PrismaTypes
