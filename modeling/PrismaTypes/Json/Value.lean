import PrismaTypes.Decimal.Numeral

/-!
# JSON documents

Two views of a document:

- `Value` is a document as data: every object has each key once;
- `Tree` is a document as it is written: objects keep all members in order, also repeated ones, and
  a literal that stands for no value is kept as `none`.

A whole number that fits 64 bits, signed or unsigned, stays whole; every other number is a double.
-/

namespace PrismaTypes
namespace Json

/-! ## Numbers -/

inductive Number
  | whole (n : Int)
  | double (d : Double)
  deriving BEq, Repr

/-- Fits a signed or an unsigned 64 bit integer. -/
def fitsWord (n : Int) : Bool :=
  -0x8000000000000000 ≤ n && n < 0x10000000000000000

/-- The number nearest to a numeral; `none` when it is too large for a double. -/
def Number.ofNumeral? (n : Decimal.Numeral) : Option Number :=
  if n.isWhole && fitsWord n.toInt then some (.whole n.toInt)
  else n.toDouble?.map .double

/-! ## Values -/

inductive Value
  | null
  | bool (b : Bool)
  | number (n : Number)
  | text (s : String)
  | list (items : List Value)
  | object (members : List (String × Value))

namespace Value

def isText : Value → Bool
  | text _ => true
  | _ => false

def isBool : Value → Bool
  | bool _ => true
  | _ => false

end Value

/-! ## Written documents -/

inductive Tree
  | null
  | bool (b : Bool)
  /-- `none` for a number that is too large. -/
  | number (n : Option Number)
  /-- `none` for a text with half of a surrogate pair. -/
  | text (s : Option String)
  | list (items : List Tree)
  | object (members : List (Option String × Tree))

end Json
end PrismaTypes
