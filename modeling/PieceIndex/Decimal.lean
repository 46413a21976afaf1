import PieceIndex.Size

/-!
Numbers as decimal text. A 64-bit number is read from digits with at most one plus sign before them.
A quotient is taken in double precision, that is, rounded to 53 binary digits, and then written with
two decimal places; both roundings go to the nearest, and a half to the even neighbour.
-/
namespace PieceIndex
namespace Decimal

def digits (chars : List Char) : Nat :=
  chars.foldl (fun value char => 10 * value + (char.toNat - '0'.toNat)) 0

def unsigned : List Char → List Char
  | '+' :: chars => chars
  | chars => chars

def parse? (text : String) : Option Nat :=
  let chars := unsigned text.toList
  if chars ≠ [] ∧ chars.all Char.isDigit then
    let value := digits chars
    if value < Size.limit then some value else none
  else
    none

/-- The whole number nearest to a quotient. -/
def roundDiv (top bottom : Nat) : Nat :=
  let whole := top / bottom
  let rest := top % bottom
  if 2 * rest < bottom then whole
  else if bottom < 2 * rest then whole + 1
  else whole + whole % 2

structure Fraction where
  top : Nat
  bottom : Nat
  deriving DecidableEq, Repr

namespace Fraction

/-- The nearest fraction with 53 binary digits. The digits of a quotient begin with those of the
larger of two powers of two that differ by one place. -/
def toDouble (x : Fraction) : Fraction :=
  let high := Nat.log2 x.top
  let low := Nat.log2 x.bottom
  let up := 52 + low + if x.top <<< low < x.bottom <<< high then 1 else 0
  ⟨roundDiv (x.top <<< up) (x.bottom <<< high) <<< high, 1 <<< up⟩

def ofNat (n : Nat) : Fraction := toDouble ⟨n, 1⟩

def div (x y : Fraction) : Fraction := toDouble ⟨x.top * y.bottom, x.bottom * y.top⟩

def twoPlaces (x : Fraction) : String :=
  let hundredths := roundDiv (100 * x.top) x.bottom
  let tail := toString (hundredths % 100)
  toString (hundredths / 100) ++ "." ++ (if tail.length < 2 then "0" ++ tail else tail)

end Fraction
end Decimal
end PieceIndex
