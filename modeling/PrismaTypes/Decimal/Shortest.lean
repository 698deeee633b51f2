import PrismaTypes.Decimal.Double

/-!
# Shortest decimals

A double is written with the fewest digits that read back as the same double. Of two such decimals
the one nearer to the double is taken, and of two equally near ones the even one.
-/

namespace PrismaTypes
namespace Double

/-- The decimal that equals the double's magnitude. -/
def exactDecimal (d : Double) : Decimal :=
  if 0 ≤ d.exponent then ⟨d.significand * Nat.pow 2 d.exponent.toNat, 0⟩
  else ⟨d.significand * Nat.pow 5 (-d.exponent).toNat, d.exponent⟩

/-- The decimal reads back as the double. -/
def readsBack (d : Double) (x : Decimal) : Bool :=
  ofDecimal? d.negative x = some d

/-- Dropping the last `n` digits of `x` leaves two neighbours of `x` with fewer digits; gives the
better one of those that read back. -/
def shortened? (d : Double) (x : Decimal) (n : Nat) : Option Decimal :=
  let unit := Nat.pow 10 n
  let below : Decimal := ⟨x.digits / unit, x.exponent + n⟩
  let above : Decimal := ⟨x.digits / unit + 1, x.exponent + n⟩
  let r := x.digits % unit
  let preferAbove := unit < 2 * r || (unit = 2 * r && below.digits % 2 = 1)
  match d.readsBack below, d.readsBack above with
  | true, true => some (if preferAbove then above else below)
  | true, false => some below
  | false, true => some above
  | false, false => none

/-- The best decimal after dropping at most `n` digits of `x`, trying the most first. -/
def shortenedBy (d : Double) (x : Decimal) : Nat → Decimal
  | 0 => x
  | n + 1 => (shortened? d x (n + 1)).getD (shortenedBy d x n)

/-- The decimal that is written for the double's magnitude. -/
def shortest (d : Double) : Decimal :=
  let x := d.exactDecimal
  shortenedBy d x ((Decimal.digitsOf x.digits).length - 1)

end Double
end PrismaTypes
