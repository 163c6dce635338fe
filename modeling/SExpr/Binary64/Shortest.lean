import SExpr.Binary64

/-!
# The shortest decimal of a double

A finite double stands for every real number that rounds to it. Of the decimals in that interval
the one with the fewest significant digits is taken, the nearest of those, and of two equally near
the greater. It is written in positional notation with at least one digit on each side of the
point.
-/

namespace SExpr.Binary64

/-- A magnitude and the interval of reals that round to it, over one denominator. -/
structure Interval where
  low : Nat
  value : Nat
  high : Nat
  den : Nat
  /-- The ends of the interval round to the value too. -/
  closed : Bool

/-- The interval of reals that round to the magnitude of a finite double. -/
def interval (x : Binary64) : Interval :=
  let m := if x.exponent = 0 then x.fraction else x.fraction + fractionEnd
  let q : Int := if x.exponent = 0 then -1074 else (x.exponent : Int) - 1075
  -- Below a power of two the neighbour is half as far away.
  let below := if x.fraction = 0 ∧ 1 < x.exponent then 1 else 2
  { low := (4 * m - below) <<< q.toNat
    value := (4 * m) <<< q.toNat
    high := (4 * m + 2) <<< q.toNat
    den := 4 <<< (-q).toNat
    closed := m % 2 == 0 }

/-- A decimal: `digits * 10 ^ exponent`. -/
structure Decimal where
  digits : Nat
  exponent : Int

/-- The number of decimal digits before the point, negative for zeros after it: the least `k` with
`value < den * 10 ^ k`. No positive double lies below `10 ^ (-340)`. -/
def Interval.pointPlace (i : Interval) : Int :=
  ((Nat.toDigits 10 (i.value * Nat.pow 10 340 / i.den)).length : Int) - 340

/-- The multiple of `10 ^ e` in the interval that is nearest to the value, if one of the value's
two neighbours among these multiples lies in the interval. -/
def Interval.onGrid (i : Interval) (e : Int) : Option Decimal :=
  let up := Nat.pow 10 (-e).toNat
  let unit := i.den * Nat.pow 10 e.toNat
  let below := i.value * up / unit
  let inside (a b : Nat) : Bool := if i.closed then a ≤ b else a < b
  let belowIn := inside (i.low * up) (below * unit)
  let aboveIn := inside ((below + 1) * unit) (i.high * up)
  let nearerBelow := 2 * (i.value * up % unit) < unit
  if belowIn && (nearerBelow || !aboveIn) then some ⟨below, e⟩
  else if aboveIn then some ⟨below + 1, e⟩
  else none

/-- The shortest decimal in the interval; seventeen digits always suffice. -/
def Interval.shortest (i : Interval) : Decimal :=
  let k := i.pointPlace
  ((List.range' 1 17).findSome? fun (n : Nat) => i.onGrid (k - n)).getD ⟨0, 0⟩

def dropTrailingZeros (cs : List Char) : List Char :=
  (cs.reverse.dropWhile (· == '0')).reverse

/-- In positional notation, with at least one digit on each side of the point. -/
def Decimal.positional (d : Decimal) : List Char :=
  let places := (-d.exponent).toNat
  let unit := Nat.pow 10 places
  let scaled := d.digits * Nat.pow 10 d.exponent.toNat
  let whole := Nat.toDigits 10 (scaled / unit)
  let part := Nat.toDigits 10 (scaled % unit)
  let fraction := dropTrailingZeros (List.replicate (places - part.length) '0' ++ part)
  whole ++ '.' :: (if fraction.isEmpty then ['0'] else fraction)

def written (x : Binary64) : List Char :=
  if x.isNaN then "nan.".toList
  else if x.isInfinite then (if x.isNegative then "-inf." else "+inf.").toList
  else
    let text := if x.isZero then "0.0".toList else x.interval.shortest.positional
    if x.isNegative then '-' :: text else text

end SExpr.Binary64
