import PrismaTypes.Command.LogLine
import PrismaTypes.Command.Run
import PrismaTypes.Command.Usage

/-!
# The program

Runs the commands on the files, the terminal and the environment of the system.
-/

namespace PrismaTypes

open Files (FileError)

def fileErrorOf : IO.Error → FileError
  | .noFileOrDirectory .. => .notFound
  | .alreadyExists .. => .alreadyExists
  | .inappropriateType _ code _ => if code = 21 then .isDirectory else .notDirectory
  | .invalidArgument _ 36 _ => .nameTooLong
  | e => .other (toString e)

/-- The outcome of an action on a file. -/
def guarded {α : Type} (path : String) (action : IO α) : IO (Except FileError α) := do
  if path.toList.contains '\x00' then return .error .nulInPath
  match ← action.toBaseIO with
  | .ok a => return .ok a
  | .error e => return .error (fileErrorOf e)

def succeeds {α : Type} (path : String) (action : IO α) : IO Bool := do
  return (← guarded path action).toBool

def readTextFile (path : String) : IO (Except FileError String) := do
  match ← guarded path (IO.FS.readBinFile path) with
  | .error e => return .error e
  | .ok bytes =>
      match String.fromUTF8? bytes with
      | some s => return .ok s
      | none => return .error .notText

/-- Actions on the system; the settings decide which notices are shown. -/
abbrev SystemRun := ReaderT LogSettings IO

instance : Host SystemRun where
  workingDirectory := do return (← IO.currentDir).toString
  isThere path := succeeds path (IO.FS.Handle.mk path .read)
  isFile path := succeeds path (IO.FS.readBinFile path)
  readText path := readTextFile path
  writeText path content := guarded path (IO.FS.writeFile path content)
  makeAll path := guarded path (IO.FS.createDirAll path)
  print line := IO.println line
  printError line := IO.eprintln line
  notify n := do
    let settings ← read
    if settings.shows n then IO.eprintln (n.render settings.format)

/-- A whole run on the system. -/
def runOnSystem (settings : LogSettings) (args : List String) : IO Command.Ending :=
  (Command.run settings args : SystemRun Command.Ending).run settings

end PrismaTypes

open PrismaTypes in
def main (args : List String) : IO UInt32 := do
  let settings := LogSettings.ofVariables (← IO.getEnv "EXTRACTOR_DEBUG")
    (← IO.getEnv "EXTRACTOR_LOG_LEVEL") (← IO.getEnv "EXTRACTOR_LOG_FORMAT")
  let ending ← runOnSystem settings args
  match ending with
  | .usage e => if e.exitCode = 0 then IO.println e.message else IO.eprintln e.message
  | _ => pure ()
  return UInt32.ofNat ending.exitCode
