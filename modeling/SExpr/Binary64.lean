/-!
# Double-precision numbers

A double is its interchange bit pattern: a sign bit, eleven exponent bits and 52 fraction bits.
Equality is numeric: a NaN differs from every number, itself included, and the two zeros are equal.
-/

namespace SExpr

/-- A double-precision number, by its bit pattern. -/
structure Binary64 where
  bits : UInt64

namespace Binary64

/-- The sign bit, above all others. -/
def signBit : Nat := 0x8000000000000000

/-- One more than the greatest fraction, and the last place of the exponent. -/
def fractionEnd : Nat := 0x10000000000000

/-- The magnitude of infinity: all exponent bits and no fraction bit. -/
def infinite : Nat := 0x7FF0000000000000

def isNegative (x : Binary64) : Bool := signBit ≤ x.bits.toNat

/-- The bits below the sign. -/
def magnitude (x : Binary64) : Nat := x.bits.toNat % signBit

def exponent (x : Binary64) : Nat := x.magnitude / fractionEnd

def fraction (x : Binary64) : Nat := x.magnitude % fractionEnd

def isNaN (x : Binary64) : Bool := infinite < x.magnitude

def isInfinite (x : Binary64) : Bool := x.magnitude == infinite

def isZero (x : Binary64) : Bool := x.magnitude == 0

/-- The double with the given sign and magnitude bits. -/
def ofMagnitude (negative : Bool) (magnitude : Nat) : Binary64 :=
  ⟨UInt64.ofNat (if negative then signBit + magnitude else magnitude)⟩

def nan : Binary64 := ofMagnitude false 0x7FF8000000000000

def infinity (negative : Bool) : Binary64 := ofMagnitude negative infinite

/-- Numeric equality. -/
def eq (x y : Binary64) : Bool :=
  !x.isNaN && !y.isNaN && (x.bits == y.bits || (x.isZero && y.isZero))

instance : BEq Binary64 := ⟨eq⟩

/-- The quotient `num / den` to the nearest whole number, a half going to the even one. -/
def roundEven (num den : Nat) : Nat :=
  let q := num / den
  let r := num % den
  if 2 * r < den then q else if den < 2 * r then q + 1 else q + q % 2

/-- The greatest `e` with `2 ^ e ≤ num / den`, for positive `num` and `den`. -/
def floorLog2 (num den : Nat) : Int :=
  let e : Int := (num.log2 : Int) - den.log2
  if den <<< e.toNat ≤ num <<< (-e).toNat then e else e - 1

/-- The double nearest to `num / den` with the given sign, for positive `den`. A half goes to the
even neighbour, and what is too large becomes infinite. -/
def ofRatio (negative : Bool) (num den : Nat) : Binary64 :=
  if num = 0 then ofMagnitude negative 0
  else
    -- The last place has weight `2 ^ e`; below the smallest normal number it no longer shrinks.
    let normal := floorLog2 num den - 52
    let e := if normal < -1074 then -1074 else normal
    let significand := roundEven (num <<< (-e).toNat) (den <<< e.toNat)
    let magnitude := (e + 1074).toNat * fractionEnd + significand
    ofMagnitude negative (if magnitude < infinite then magnitude else infinite)

/-- The double nearest to `digits / 10 ^ places` with the given sign. -/
def ofDecimal (negative : Bool) (digits places : Nat) : Binary64 :=
  ofRatio negative digits (Nat.pow 10 places)

end Binary64

end SExpr
