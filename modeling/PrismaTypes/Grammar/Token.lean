/-!
# Tokens

The words of the schema language, recognised character by character. A scanner splits off the
longest word of its kind at the start of a text, or refuses; what it takes and what it leaves always
make up the text again. Between words stand blanks and comments (`splitBlanks`).
-/

namespace PrismaTypes
namespace Grammar

/-! ## Character classes -/

def isSpace (c : Char) : Bool :=
  c = ' ' || c = '\t' || c = '\r' || c = '\n'

def isLineBreak (c : Char) : Bool :=
  c = '\n' || c = '\r'

def isLetter (c : Char) : Bool :=
  ('a' ≤ c && c ≤ 'z') || ('A' ≤ c && c ≤ 'Z')

def isDigit (c : Char) : Bool :=
  '0' ≤ c && c ≤ '9'

/-- May start an identifier. -/
def isWordStart (c : Char) : Bool :=
  isLetter c || c = '_'

/-- May continue an identifier. -/
def isWordPart (c : Char) : Bool :=
  isWordStart c || isDigit c

/-- What a scanner took from the front of a text, and what is left. -/
abbrev Scan := List Char × List Char

def Scan.push (c : Char) (s : Scan) : Scan :=
  (c :: s.1, s.2)

/-- Splits off the characters of a class. -/
def spanOf (p : Char → Bool) (s : List Char) : Scan :=
  (s.takeWhile p, s.dropWhile p)

/-! ## Fixed words -/

/-- What follows `word` at the start of a text. -/
def afterWord? : List Char → List Char → Option (List Char)
  | [], s => some s
  | _ :: _, [] => none
  | w :: word, c :: s => if w = c then afterWord? word s else none

/-- A fixed word that is not the beginning of a longer one. -/
def scanKeyword (word s : List Char) : Option Scan :=
  match afterWord? word s with
  | none => none
  | some rest => if rest.head?.any isWordPart then none else some (word, rest)

/-! ## Blanks and comments -/

/-- Two slashes open a comment, and so do four; exactly three open documentation. -/
def opensComment : List Char → Bool
  | '/' :: '/' :: '/' :: '/' :: _ => true
  | '/' :: '/' :: '/' :: _ => false
  | '/' :: '/' :: _ => true
  | _ => false

/-- Splits off blanks and comments; `inComment` says that the text continues a comment. A comment
ends before its line break. -/
def splitBlanks (inComment : Bool) : List Char → Scan
  | [] => ([], [])
  | c :: rest =>
      if inComment then (splitBlanks (!isLineBreak c) rest).push c
      else if isSpace c then (splitBlanks false rest).push c
      else if opensComment (c :: rest) then (splitBlanks true rest).push c
      else ([], c :: rest)

def scanSpace : List Char → Option Scan
  | c :: rest => if isSpace c then some ([c], rest) else none
  | [] => none

def scanComment (s : List Char) : Option Scan :=
  if opensComment s then some (spanOf (!isLineBreak ·) s) else none

/-! ## Names -/

def scanIdentifier : List Char → Option Scan
  | c :: rest => if isWordStart c then some ((spanOf isWordPart rest).push c) else none
  | [] => none

/-- The rest of a dotted name: word characters, and points that an identifier follows. -/
def splitDotted : List Char → Scan
  | [] => ([], [])
  | c :: rest =>
      if isWordPart c || (c = '.' && rest.head?.any isWordStart) then (splitDotted rest).push c
      else ([], c :: rest)

def scanPath : List Char → Option Scan
  | c :: rest => if isWordStart c then some ((splitDotted rest).push c) else none
  | [] => none

def scanBlockKeyword (s : List Char) : Option Scan :=
  (scanKeyword ['t', 'y', 'p', 'e'] s).or (scanKeyword ['v', 'i', 'e', 'w'] s)

/-! ## Literals -/

def scanBoolean (s : List Char) : Option Scan :=
  (scanKeyword ['t', 'r', 'u', 'e'] s).or (scanKeyword ['f', 'a', 'l', 's', 'e'] s)

/-- A point and the digits after it, if there are any. -/
def splitFraction : List Char → Scan
  | '.' :: rest =>
      if rest.head?.any isDigit then (spanOf isDigit rest).push '.' else ([], '.' :: rest)
  | s => ([], s)

def scanUnsigned (s : List Char) : Option Scan :=
  if s.head?.any isDigit then
    let whole := spanOf isDigit s
    let fraction := splitFraction whole.2
    some (whole.1 ++ fraction.1, fraction.2)
  else none

def scanNumber : List Char → Option Scan
  | '-' :: rest => (scanUnsigned rest).map (·.push '-')
  | s => scanUnsigned s

/-- The rest of a string literal after its opening quote. A backslash takes the next character with
it, whatever that is. -/
def splitString : List Char → Option Scan
  | [] => none
  | '\"' :: rest => some (['\"'], rest)
  | ['\\'] => none
  | '\\' :: c :: rest => (splitString rest).map fun s => (s.push c).push '\\'
  | c :: rest => (splitString rest).map (·.push c)

def scanString : List Char → Option Scan
  | '\"' :: rest => (splitString rest).map (·.push '\"')
  | _ => none

/-- The text of a documentation line: all that is left of the line, possibly nothing. -/
def scanDocText (s : List Char) : Option Scan :=
  some (spanOf (!isLineBreak ·) s)

end Grammar
end PrismaTypes
