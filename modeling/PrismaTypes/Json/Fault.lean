import PrismaTypes.Text.Location

/-!
# Faults in JSON texts

Why a text is no JSON document, and where. A fault carries the text that was still unread; its
position counts lines from one and bytes in the line, up to and including the byte at fault.
-/

namespace PrismaTypes
namespace Json

inductive Fault
  | endInValue
  | endInList
  | endInObject
  | endInText
  | valueExpected
  | wordExpected
  | colonExpected
  | listEndExpected
  | objectEndExpected
  | keyExpected
  | commaAtEnd
  | badNumber
  | badEscape
  | controlCharacter
  | moreCharacters
  | numberTooLarge
  | halfSurrogate
  | tooDeep
  /-- Data of another type than wanted. -/
  | mistyped
  deriving DecidableEq, Repr

def Fault.message : Fault → String
  | endInValue => "EOF while parsing a value"
  | endInList => "EOF while parsing a list"
  | endInObject => "EOF while parsing an object"
  | endInText => "EOF while parsing a string"
  | valueExpected => "expected value"
  | wordExpected => "expected ident"
  | colonExpected => "expected `:`"
  | listEndExpected => "expected `,` or `]`"
  | objectEndExpected => "expected `,` or `\x7d`"
  | keyExpected => "key must be a string"
  | commaAtEnd => "trailing comma"
  | badNumber => "invalid number"
  | badEscape => "invalid escape"
  | controlCharacter => "control character (\\u0000-\\u001F) found while parsing a string"
  | moreCharacters => "trailing characters"
  | numberTooLarge => "number out of range"
  | halfSurrogate => "lone leading surrogate in hex escape"
  | tooDeep => "recursion limit exceeded"
  | mistyped => "invalid type"

/-- A fault and the text from it on. -/
structure ReadError where
  fault : Fault
  unread : List Char
  deriving DecidableEq, Repr

/-- The fault with its position in the text `input`. -/
def ReadError.message (e : ReadError) (input : List Char) : String :=
  let read := input.take (input.length - e.unread.length + 1)
  let line := Text.lineFeeds read + 1
  let column := Text.byteLength (Text.lastLine read)
  e.fault.message ++ " at line " ++ toString line ++ " column " ++ toString column

end Json
end PrismaTypes
