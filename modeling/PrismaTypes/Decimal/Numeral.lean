import PrismaTypes.Decimal.Double

/-!
# Numerals

A written number: sign, whole digits, digits after a point and an exponent, each as it stands.
`Numeral.read?` accepts the loose form, in which the digits on either side of the point may be
missing.
-/

namespace PrismaTypes
namespace Decimal

structure Numeral where
  negative : Bool
  whole : List Char
  /-- Digits after the point; `none` when there is no point. -/
  fraction : Option (List Char)
  exponent : Option Int
  deriving DecidableEq, Repr

namespace Numeral

/-- Neither point nor exponent is written. -/
def isWhole (n : Numeral) : Bool :=
  n.fraction.isNone && n.exponent.isNone

def toInt (n : Numeral) : Int :=
  if n.negative then -(valueOf n.whole : Int) else valueOf n.whole

/-- The number without its sign. -/
def magnitude (n : Numeral) : Decimal :=
  let fraction := n.fraction.getD []
  ⟨valueOf (n.whole ++ fraction), n.exponent.getD 0 - fraction.length⟩

def toDouble? (n : Numeral) : Option Double :=
  Double.ofDecimal? n.negative n.magnitude

/-! ## Reading -/

/-- An optional sign; says whether it is a minus. -/
def splitSign : List Char → Bool × List Char
  | '-' :: rest => (true, rest)
  | '+' :: rest => (false, rest)
  | s => (false, s)

/-- Digits after an optional point. -/
def splitPoint : List Char → Option (List Char) × List Char
  | '.' :: rest => (some (rest.takeWhile isDigit), rest.dropWhile isDigit)
  | s => (none, s)

/-- An exponent that fills the whole text, or no text at all. -/
def readExponent? : List Char → Option (Option Int)
  | [] => some none
  | c :: rest =>
      if c = 'e' || c = 'E' then
        let (negative, digits) := splitSign rest
        if digits.isEmpty || !digits.all isDigit then none
        else some (some (if negative then -(valueOf digits : Int) else valueOf digits))
      else none

/-- Reads a whole text as a numeral. -/
def read? (s : List Char) : Option Numeral :=
  let (negative, unsigned) := splitSign s
  let whole := unsigned.takeWhile isDigit
  let (fraction, rest) := splitPoint (unsigned.dropWhile isDigit)
  if whole.isEmpty && (fraction.getD []).isEmpty then none
  else (readExponent? rest).map fun exponent => { negative, whole, fraction, exponent }

end Numeral

end Decimal
end PrismaTypes
