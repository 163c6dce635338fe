import SExpr.Binary64.Shortest

/-!
# Numbers

The numbers of the data: integers and fractions of any size, and doubles. A fraction is always in
lowest terms with a positive denominator, and is written with its slash even if it is whole, so
that it reads back as a fraction.
-/

namespace SExpr

inductive Number where
  | integer (n : Int)
  | rational (q : Rat)
  | float (x : Binary64)

namespace Number

/-- The fraction `num / den`, unless `den` is zero. -/
def fraction? (num den : Int) : Option Number :=
  if den = 0 then none else some (rational (mkRat (num * den.sign) den.natAbs))

/-- Numbers are equal if they are of one kind and have one value. -/
def eq : Number → Number → Bool
  | integer m, integer n => m == n
  | rational p, rational q => p == q
  | float x, float y => x == y
  | _, _ => false

instance : BEq Number := ⟨eq⟩

def decimal (n : Int) : List Char :=
  if n < 0 then '-' :: Nat.toDigits 10 n.natAbs else Nat.toDigits 10 n.natAbs

def written : Number → List Char
  | integer n => decimal n
  | rational q => decimal q.num ++ '/' :: Nat.toDigits 10 q.den
  | float x => x.written

end Number

end SExpr
