import PrismaTypes.Decimal.Scaled
import PrismaTypes.Json.Value
import PrismaTypes.Json.Fault
import PrismaTypes.Members

/-!
# Reading JSON

`readTree` reads a text as a written document and `Tree.toValue` takes that as data: keys are
merged, literals without a value are refused, and nesting is limited. The fuel of the recursive
readers bounds their depth; every step takes at least one character.
-/

namespace PrismaTypes
namespace Json

/-! ## Blanks and words -/

def isBlankChar (c : Char) : Bool :=
  c = ' ' || c = '\t' || c = '\n' || c = '\r'

def skipBlanks (s : List Char) : List Char :=
  s.dropWhile isBlankChar

/-- Reads the rest of a fixed word. -/
def readWord (tree : Tree) : List Char → List Char → Except ReadError (Tree × List Char)
  | [], s => .ok (tree, s)
  | _ :: _, [] => .error ⟨.endInValue, []⟩
  | w :: word, c :: s => if w = c then readWord tree word s else .error ⟨.wordExpected, c :: s⟩

/-! ## Numbers -/

/-- Digits, at least one. -/
def readDigits (s : List Char) : Except ReadError (List Char × List Char) :=
  if s.head?.any Decimal.isDigit then
    .ok (s.takeWhile Decimal.isDigit, s.dropWhile Decimal.isDigit)
  else .error ⟨if s.isEmpty then .endInValue else .badNumber, s⟩

/-- Whole digits: a zero stands alone. -/
def readWhole : List Char → Except ReadError (List Char × List Char)
  | '0' :: rest =>
      if rest.head?.any Decimal.isDigit then .error ⟨.badNumber, rest⟩ else .ok (['0'], rest)
  | s => readDigits s

def readFraction : List Char → Except ReadError (Option (List Char) × List Char)
  | '.' :: rest => do
      let (digits, rest) ← readDigits rest
      return (some digits, rest)
  | s => .ok (none, s)

def readExponent : List Char → Except ReadError (Option Int × List Char)
  | [] => .ok (none, [])
  | c :: rest =>
      if c = 'e' || c = 'E' then do
        let (negative, rest) := Decimal.Numeral.splitSign rest
        let (digits, rest) ← readDigits rest
        let n : Int := Decimal.valueOf digits
        return (some (if negative then -n else n), rest)
      else .ok (none, c :: rest)

/-- The number of a written numeral. Minus zero is a double, and doubles are read by scaling, so one
with many digits may be off by its last bit. -/
def numberOf (n : Decimal.Numeral) : Option Number :=
  if n.isWhole && n.negative && n.toInt = 0 then some (.double (.zero true))
  else if n.isWhole && fitsWord n.toInt then some (.whole n.toInt)
  else n.toScaledDouble?.map .double

def readNumber (s : List Char) : Except ReadError (Tree × List Char) := do
  let (negative, unsigned) := if s.head? = some '-' then (true, s.drop 1) else (false, s)
  let (whole, rest) ← readWhole unsigned
  let (fraction, rest) ← readFraction rest
  let (exponent, rest) ← readExponent rest
  return (.number (numberOf { negative, whole, fraction, exponent }), rest)

/-! ## Texts -/

def hexValue? (c : Char) : Option Nat :=
  if '0' ≤ c && c ≤ '9' then some (c.toNat - '0'.toNat)
  else if 'a' ≤ c && c ≤ 'f' then some (c.toNat - 'a'.toNat + 10)
  else if 'A' ≤ c && c ≤ 'F' then some (c.toNat - 'A'.toNat + 10)
  else none

/-- One unit of a text: a character, or a unit of the sixteen bit form written by an escape. -/
inductive TextUnit
  | char (c : Char)
  | unit (n : Nat)
  deriving DecidableEq, Repr

/-- The character of a short escape. -/
def shortEscape? : Char → Option Char
  | '\"' => some '\"'
  | '\\' => some '\\'
  | '/' => some '/'
  | 'b' => some '\x08'
  | 'f' => some '\x0c'
  | 'n' => some '\n'
  | 'r' => some '\r'
  | 't' => some '\t'
  | _ => none

def pushUnit (u : TextUnit) :
    Except ReadError (List TextUnit × List Char) → Except ReadError (List TextUnit × List Char)
  | .ok (units, rest) => .ok (u :: units, rest)
  | .error e => .error e

/-- The units of a text up to its closing quote. -/
def readUnits : List Char → Except ReadError (List TextUnit × List Char)
  | [] => .error ⟨.endInText, []⟩
  | '\"' :: rest => .ok ([], rest)
  | ['\\'] => .error ⟨.endInText, []⟩
  | '\\' :: 'u' :: a :: b :: c :: d :: rest =>
      match hexValue? a, hexValue? b, hexValue? c, hexValue? d with
      | some a, some b, some c, some d =>
          pushUnit (.unit (((a * 16 + b) * 16 + c) * 16 + d)) (readUnits rest)
      | _, _, _, _ => .error ⟨.badEscape, a :: b :: c :: d :: rest⟩
  | '\\' :: c :: rest =>
      match shortEscape? c with
      | some e => pushUnit (.char e) (readUnits rest)
      | none => .error ⟨.badEscape, c :: rest⟩
  | c :: rest =>
      if c.toNat < 0x20 then .error ⟨.controlCharacter, c :: rest⟩
      else pushUnit (.char c) (readUnits rest)

/-- The character of a high and a low surrogate. -/
def surrogatePair (high low : Nat) : Char :=
  Char.ofNat (0x10000 + (high - 0xD800) * 0x400 + (low - 0xDC00))

/-- Units as characters; two surrogates in the right order make one character, and a single one
none. -/
def decodeUnits : List TextUnit → Option (List Char)
  | [] => some []
  | .char c :: rest => (decodeUnits rest).map (c :: ·)
  | .unit n :: rest =>
      if n < 0xD800 || 0xDFFF < n then (decodeUnits rest).map (Char.ofNat n :: ·)
      else
        match rest with
        | .unit m :: rest =>
            if n < 0xDC00 && 0xDC00 ≤ m && m < 0xE000 then
              (decodeUnits rest).map (surrogatePair n m :: ·)
            else none
        | _ => none

/-- Reads a text after its opening quote. -/
def readText (s : List Char) : Except ReadError (Option String × List Char) := do
  let (units, rest) ← readUnits s
  return ((decodeUnits units).map String.ofList, rest)

/-! ## Documents -/

mutual

/-- Reads a value; blanks before it are skipped. -/
def readValue : Nat → List Char → Except ReadError (Tree × List Char)
  | 0, s => .error ⟨.tooDeep, s⟩
  | fuel + 1, s =>
      match skipBlanks s with
      | [] => .error ⟨.endInValue, []⟩
      | 'n' :: rest => readWord .null ['u', 'l', 'l'] rest
      | 't' :: rest => readWord (.bool true) ['r', 'u', 'e'] rest
      | 'f' :: rest => readWord (.bool false) ['a', 'l', 's', 'e'] rest
      | '\"' :: rest => do
          let (text, rest) ← readText rest
          return (.text text, rest)
      | '[' :: rest =>
          match skipBlanks rest with
          | ']' :: rest => .ok (.list [], rest)
          | [] => .error ⟨.endInList, []⟩
          | rest => do
              let (items, rest) ← readItems fuel rest
              return (.list items, rest)
      | '\x7b' :: rest =>
          match skipBlanks rest with
          | '\x7d' :: rest => .ok (.object [], rest)
          | [] => .error ⟨.endInObject, []⟩
          | rest => do
              let (members, rest) ← readMembers fuel rest
              return (.object members, rest)
      | c :: rest =>
          if c = '-' || Decimal.isDigit c then readNumber (c :: rest)
          else .error ⟨.valueExpected, c :: rest⟩

/-- Reads the items of a list up to its closing bracket; there is at least one. -/
def readItems : Nat → List Char → Except ReadError (List Tree × List Char)
  | 0, s => .error ⟨.tooDeep, s⟩
  | fuel + 1, s => do
      let (item, rest) ← readValue fuel s
      match skipBlanks rest with
      | ']' :: rest => return ([item], rest)
      | ',' :: rest =>
          match skipBlanks rest with
          | ']' :: rest => .error ⟨.commaAtEnd, ']' :: rest⟩
          | rest =>
              let (items, rest) ← readItems fuel rest
              return (item :: items, rest)
      | [] => .error ⟨.endInList, []⟩
      | rest => .error ⟨.listEndExpected, rest⟩

/-- Reads the members of an object up to its closing brace; there is at least one. -/
def readMembers : Nat → List Char → Except ReadError (List (Option String × Tree) × List Char)
  | 0, s => .error ⟨.tooDeep, s⟩
  | fuel + 1, s =>
      match s with
      | '\"' :: rest => do
          let (key, rest) ← readText rest
          match skipBlanks rest with
          | ':' :: rest =>
              let (value, rest) ← readValue fuel rest
              match skipBlanks rest with
              | '\x7d' :: rest => return ([(key, value)], rest)
              | ',' :: rest =>
                  match skipBlanks rest with
                  | '\x7d' :: rest => .error ⟨.commaAtEnd, '\x7d' :: rest⟩
                  | [] => .error ⟨.endInValue, []⟩
                  | rest =>
                      let (members, rest) ← readMembers fuel rest
                      return ((key, value) :: members, rest)
              | [] => .error ⟨.endInObject, []⟩
              | rest => .error ⟨.objectEndExpected, rest⟩
          | [] => .error ⟨.endInObject, []⟩
          | rest => .error ⟨.colonExpected, rest⟩
      | s => .error ⟨.keyExpected, s⟩

end

/-- Reads a whole text as one written document. -/
def readTree (s : List Char) : Except ReadError Tree := do
  let (tree, rest) ← readValue (2 * s.length + 2) s
  match skipBlanks rest with
  | [] => return tree
  | rest => .error ⟨.moreCharacters, rest⟩

/-! ## Documents as data -/

/-- Lists and objects may be nested this deep. -/
def maxDepth : Nat := 127

mutual

/-- The document as data, when `room` more levels of nesting are allowed. -/
def Tree.toValue : Nat → Tree → Except Fault Value
  | _, .null => .ok .null
  | _, .bool b => .ok (.bool b)
  | _, .number (some n) => .ok (.number n)
  | _, .number none => .error .numberTooLarge
  | _, .text (some s) => .ok (.text s)
  | _, .text none => .error .halfSurrogate
  | 0, .list _ => .error .tooDeep
  | 0, .object _ => .error .tooDeep
  | room + 1, .list items => (valuesOf room items).map .list
  | room + 1, .object members =>
      (membersOf room members).map fun pairs => .object (Members.ofPairs pairs)

def valuesOf : Nat → List Tree → Except Fault (List Value)
  | _, [] => .ok []
  | room, item :: rest => do
      let value ← item.toValue room
      let values ← valuesOf room rest
      return value :: values

def membersOf : Nat → List (Option String × Tree) → Except Fault (List (String × Value))
  | _, [] => .ok []
  | _, (none, _) :: _ => .error .halfSurrogate
  | room, (some key, item) :: rest => do
      let value ← item.toValue room
      let values ← membersOf room rest
      return (key, value) :: values

end

/-- Reads a whole text as data. -/
def read (s : List Char) : Except ReadError Value := do
  let tree ← readTree s
  match tree.toValue maxDepth with
  | .ok value => return value
  | .error fault => .error ⟨fault, []⟩

end Json
end PrismaTypes
