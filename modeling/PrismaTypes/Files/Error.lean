/-!
# File errors

Why a file or directory could not be read or written.
-/

namespace PrismaTypes
namespace Files

inductive FileError
  | notFound
  | alreadyExists
  | notDirectory
  | isDirectory
  /-- A name or a whole path has too many bytes. -/
  | nameTooLong
  /-- The path holds the character that ends texts for the system. -/
  | nulInPath
  /-- The content is not UTF-8. -/
  | notText
  /-- Anything else that a host may report. -/
  | other (text : String)
  deriving DecidableEq, Repr

def FileError.message : FileError → String
  | notFound => "No such file or directory (os error 2)"
  | alreadyExists => "File exists (os error 17)"
  | notDirectory => "Not a directory (os error 20)"
  | isDirectory => "Is a directory (os error 21)"
  | nameTooLong => "File name too long (os error 36)"
  | nulInPath => "file name contained an unexpected NUL byte"
  | notText => "stream did not contain valid UTF-8"
  | other text => text

end Files
end PrismaTypes
