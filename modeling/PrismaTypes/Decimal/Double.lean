import PrismaTypes.Decimal.Digits

/-!
# Double precision numbers

The finite binary floating point numbers with 53 bits of precision, as a sign, a significand and a
power of two. A decimal is read as the double nearest to it; of two equally near ones the one with
the even significand is taken.
-/

namespace PrismaTypes

/-- `digits × 10 ^ exponent`. -/
structure Decimal where
  digits : Nat
  exponent : Int
  deriving DecidableEq, Repr

/-- `± significand × 2 ^ exponent`. Zero has the least exponent, -1074; otherwise the significand
has 53 bits, or fewer at the least exponent. -/
structure Double where
  negative : Bool
  significand : Nat
  exponent : Int
  deriving DecidableEq, Repr

namespace Decimal

/-- The quotient to the nearest whole number, a half to the even neighbour. -/
def roundDiv (num den : Nat) : Nat :=
  let q := num / den
  let r := num % den
  if den < 2 * r || (den = 2 * r && q % 2 = 1) then q + 1 else q

/-- `num / den` as a fraction after multiplication by `2 ^ k`. -/
def scale (num den : Nat) (k : Int) : Nat × Nat :=
  if 0 ≤ k then (num * Nat.pow 2 k.toNat, den) else (num, den * Nat.pow 2 (-k).toNat)

/-- The greatest `k` with `2 ^ k ≤ num / den`, for positive arguments. -/
def floorLog2 (num den : Nat) : Int :=
  let k : Int := num.log2 - den.log2
  let scaled := scale num den (-k)
  if scaled.2 ≤ scaled.1 then k else k - 1

end Decimal

namespace Double

def zero (negative : Bool) : Double :=
  ⟨negative, 0, -1074⟩

/-- The double nearest to `± num / den`, unless that is beyond the greatest one. -/
def ofRatio? (negative : Bool) (num den : Nat) : Option Double :=
  if num = 0 then some (zero negative)
  else
    let e := max (Decimal.floorLog2 num den - 52) (-1074)
    let scaled := Decimal.scale num den (-e)
    let m := Decimal.roundDiv scaled.1 scaled.2
    let d : Double :=
      if m = Nat.pow 2 53 then ⟨negative, Nat.pow 2 52, e + 1⟩ else ⟨negative, m, e⟩
    if 971 < d.exponent then none else some d

/-- The double nearest to a signed decimal. Decimals far out of range are settled by their number of
digits alone. -/
def ofDecimal? (negative : Bool) (x : Decimal) : Option Double :=
  let magnitude : Int := (Decimal.digitsOf x.digits).length + x.exponent
  if x.digits = 0 || magnitude < -330 then some (zero negative)
  else if 310 < magnitude then none
  else if 0 ≤ x.exponent then ofRatio? negative (x.digits * Nat.pow 10 x.exponent.toNat) 1
  else ofRatio? negative x.digits (Nat.pow 10 (-x.exponent).toNat)

/-- Equality as numbers: the two zeros are one. -/
def same (a b : Double) : Bool :=
  a = b || (a.significand = 0 && b.significand = 0)

instance : BEq Double := ⟨same⟩

end Double

end PrismaTypes
