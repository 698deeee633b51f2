import PrismaTypes.Decimal.Numeral

/-!
# Reading numerals by scaling

A quick way to a double: the leading digits of a numeral that fit 64 bits are taken as a double, and
that is multiplied or divided by a power of ten, which is a double too. Every step goes to the
nearest double, so the result may miss the double nearest to the numeral by its last bit.
`Numeral.toDouble?` is the way that never misses.
-/

namespace PrismaTypes

/-! ## Arithmetic -/

namespace Double

/-- The double nearest to the product, unless that is beyond the greatest one. -/
def times? (a b : Double) : Option Double :=
  let product := Decimal.scale (a.significand * b.significand) 1 (a.exponent + b.exponent)
  ofRatio? (a.negative != b.negative) product.1 product.2

/-- The double nearest to the quotient, unless that is beyond the greatest one; the divisor is not
zero. -/
def over? (a b : Double) : Option Double :=
  let quotient := Decimal.scale a.significand b.significand (a.exponent - b.exponent)
  ofRatio? (a.negative != b.negative) quotient.1 quotient.2

/-- The double nearest to `10 ^ n`; there is none from 309 on. -/
def powerOfTen? (n : Nat) : Option Double :=
  ofRatio? false (Nat.pow 10 n) 1

/-- `± significand × 10 ^ exponent` for a significand of 64 bits. No power of ten beyond 308 is
used: a greater one is too large, and a smaller one takes a second division. What remains after two
divisions by the greatest power is zero. -/
def ofScaled? (negative : Bool) (significand : Nat) (exponent : Int) : Option Double := do
  let start ← ofRatio? negative significand 1
  if significand = 0 then return start
  else if 308 < exponent then none
  else if 0 ≤ exponent then start.times? (← powerOfTen? exponent.toNat)
  else if -308 ≤ exponent then start.over? (← powerOfTen? (-exponent).toNat)
  else if -616 ≤ exponent then
    (← start.over? (← powerOfTen? 308)).over? (← powerOfTen? (-exponent - 308).toNat)
  else return zero negative

end Double

/-! ## Numerals -/

namespace Decimal

/-- Appends digits to a number as long as it stays below `2 ^ 64`; the digits that are left over
start with the first one that did not fit. -/
def appendWord (n : Nat) : List Char → Nat × List Char
  | [] => (n, [])
  | c :: rest =>
      let longer := n * 10 + digitValue c
      if longer < 0x10000000000000000 then appendWord longer rest else (n, c :: rest)

/-- The double of a numeral by its leading digits. Further whole digits count as zeros, and further
digits after the point are dropped. -/
def Numeral.toScaledDouble? (n : Numeral) : Option Double :=
  let fraction := n.fraction.getD []
  let whole := appendWord 0 n.whole
  let all := appendWord whole.1 fraction
  let used := fraction.length - all.2.length
  Double.ofScaled? n.negative all.1 (n.exponent.getD 0 + whole.2.length - used)

end Decimal

end PrismaTypes
