import SExpr.Failure
import SExpr.Text.Cut
import SExpr.Value

/-!
# Numerals

Which literals are numbers, and which number each of them is. A literal that is no number is a
symbol.
-/

namespace SExpr.Numeral

open Text

/-- Takes the sign off: whether it is a minus, and what follows. -/
def cutSign : List Char → Bool × List Char
  | [] => (false, [])
  | c :: cs => if c = '-' then (true, cs) else if c = '+' then (false, cs) else (false, c :: cs)

/-- At least one decimal digit, and nothing else. -/
def isDigits (cs : List Char) : Bool := !cs.isEmpty && cs.all Char.isDigit

def isSignedDigits (cs : List Char) : Bool := isDigits (cutSign cs).2

/-- The value of a digit; letters of either case follow the decimal digits. -/
def digitValue? (radix : Nat) (c : Char) : Option Nat :=
  let n :=
    if c.isDigit then some (c.toNat - '0'.toNat)
    else if c.isLower then some (c.toNat - 'a'.toNat + 10)
    else if c.isUpper then some (c.toNat - 'A'.toNat + 10)
    else none
  n.filter (· < radix)

/-- The number whose digits follow those of `n`, if they are digits of the radix. -/
def naturalFrom? (radix : Nat) (n : Nat) : List Char → Option Nat
  | [] => some n
  | c :: cs => (digitValue? radix c).bind fun d => naturalFrom? radix (n * radix + d) cs

/-- The number with the given digits, of which there is at least one. -/
def natural? (radix : Nat) (cs : List Char) : Option Nat :=
  if cs.isEmpty then none else naturalFrom? radix 0 cs

/-- The integer with an optional sign and digits of the radix. -/
def integer? (radix : Nat) (cs : List Char) : Option Int :=
  let (negative, digits) := cutSign cs
  (natural? radix digits).map fun n => if negative then -(n : Int) else n

/-- Numerator and denominator of a fraction, as written. Only the numerator has a sign. -/
def rational? (cs : List Char) : Option (Int × Nat) :=
  match cutAt '/' cs with
  | (num, some den) =>
    if isSignedDigits num && isDigits den then
      (integer? 10 num).bind fun n => (natural? 10 den).map fun d => (n, d)
    else none
  | (_, none) => none

/-- Sign, digits before and digits after the point of a decimal. -/
def decimalParts? (cs : List Char) : Option (Bool × List Char × List Char) :=
  let (negative, digits) := cutSign cs
  match cutAt '.' digits with
  | (whole, some part) =>
    if whole.all Char.isDigit && part.all Char.isDigit && !(whole.isEmpty && part.isEmpty) then
      some (negative, whole, part)
    else none
  | (_, none) => none

/-- An optional sign and digits with a point before, among or after them. -/
def isDecimal (cs : List Char) : Bool := (decimalParts? cs).isSome

def decimal? (cs : List Char) : Option Binary64 :=
  (decimalParts? cs).map fun (negative, whole, part) =>
    .ofDecimal negative ((naturalFrom? 10 0 (whole ++ part)).getD 0) part.length

/-- A decimal and an exponent: `e` in either case, an optional sign and digits. -/
def isDouble (cs : List Char) : Bool :=
  let mantissa := cs.takeWhile fun c => c != 'e' && c != 'E'
  match cs.dropWhile fun c => c != 'e' && c != 'E' with
  | _ :: exponent => isDecimal mantissa && isSignedDigits exponent
  | [] => false

/-- The spellings of the doubles that are not finite. -/
def special? (cs : List Char) : Option Binary64 :=
  if cs = "nan.".toList then some .nan
  else if cs = "+inf.".toList then some (.infinity false)
  else if cs = "-inf.".toList then some (.infinity true)
  else none

/-- The number a literal is, if it is one: a fraction, a decimal, a special double or an integer.
A fraction with a zero below the bar fails. -/
def number? (cs : List Char) : Except Cause (Option Number) :=
  match rational? cs with
  | some (num, den) =>
    match Number.fraction? num den with
    | some n => .ok (some n)
    | none => .error (.malformedNumber 10 (String.ofList cs))
  | none =>
    match decimal? cs with
    | some x => .ok (some (.float x))
    | none =>
      match special? cs with
      | some x => .ok (some (.float x))
      | none =>
        if isSignedDigits cs then .ok ((integer? 10 cs).map .integer) else .ok none

/-- The atom a literal is: a number, or else a symbol. A lone point is a symbol. -/
def atom (cs : List Char) : Except Cause Atom :=
  if cs = ['.'] then .ok (.symbol ".")
  else (number? cs).map fun
    | some n => .number n
    | none => .symbol (String.ofList cs)

end SExpr.Numeral
