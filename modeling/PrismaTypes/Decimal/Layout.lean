import PrismaTypes.Decimal.Shortest

/-!
# Layout of decimals

How the digits of a decimal are set. With `d.ddd × 10 ^ e`, exponents from `lowest` to `highest` are
written positionally and always with a fraction, all others with a marked exponent.
-/

namespace PrismaTypes
namespace Decimal

structure Layout where
  lowest : Int
  highest : Int
  /-- Stands before a positive exponent. -/
  positiveMark : List Char
  deriving DecidableEq, Repr

/-- Digits without the zeros at their end. -/
def dropZeros (digits : List Char) : List Char :=
  (digits.reverse.dropWhile (· = '0')).reverse

/-- Digits with a point after the first `n`; both sides get at least one digit. -/
def positional (digits : List Char) (n : Int) : List Char :=
  if n ≤ 0 then ['0', '.'] ++ List.replicate (-n).toNat '0' ++ digits
  else if digits.length ≤ n.toNat then
    digits ++ List.replicate (n.toNat - digits.length) '0' ++ ['.', '0']
  else digits.take n.toNat ++ ['.'] ++ digits.drop n.toNat

/-- One digit, a point if more follow, and the exponent. -/
def scientific (layout : Layout) (digits : List Char) (e : Int) : List Char :=
  let fraction := if digits.length ≤ 1 then [] else '.' :: digits.drop 1
  let mark := if 0 ≤ e then layout.positiveMark else []
  digits.take 1 ++ fraction ++ ['e'] ++ mark ++ intDigits e

/-- The text of a decimal; zero is `0.0`. -/
def render (layout : Layout) (x : Decimal) : List Char :=
  if x.digits = 0 then ['0', '.', '0']
  else
    let all := digitsOf x.digits
    let digits := dropZeros all
    let e := x.exponent + all.length - 1
    if layout.lowest ≤ e && e ≤ layout.highest then positional digits (e + 1)
    else scientific layout digits e

end Decimal

/-- The text of a double: a sign if it is negative, also for zero, and its shortest decimal. -/
def Double.render (layout : Decimal.Layout) (d : Double) : List Char :=
  (if d.negative then ['-'] else []) ++ d.shortest.render layout

end PrismaTypes
