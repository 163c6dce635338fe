import SExpr.Compact

/-!
# Pairs

Chains of pairs, each of a head and what comes after it: nothing, another pair, or a value after a
dot.
-/

namespace SExpr

/-- A chain of pairs. -/
inductive Pair where
  | last (head : Value)
  | cons (head : Value) (tail : Pair)
  | dotted (head : Value) (tail : Value)

namespace Pair

def head : Pair → Value
  | last v => v
  | cons v _ => v
  | dotted v _ => v

/-- The pair that comes after the first value, if one does. -/
def tail? : Pair → Option Pair
  | cons _ tail => some tail
  | _ => none

/-- A value comes directly after the first one and a dot. -/
def isDotted : Pair → Bool
  | dotted _ _ => true
  | _ => false

/-- Nothing or another pair comes after the first value. -/
def isProper (p : Pair) : Bool := !p.isDotted

/-- The pair is nil and nothing. -/
def isEmpty : Pair → Bool
  | last v => v.isNil
  | _ => false

def heads : Pair → List Value
  | last v => [v]
  | cons v tail => v :: heads tail
  | dotted v _ => [v]

/-- The heads along the chain, and the value after a dot. -/
def toList : Pair → List Value
  | last v => [v]
  | cons v tail => v :: toList tail
  | dotted v tail => [v, tail]

/-- Pairs are equal if they have one shape and equal values. -/
def eq : Pair → Pair → Bool
  | last v, last w => v == w
  | cons v p, cons w q => v == w && eq p q
  | dotted v t, dotted w u => v == w && t == u
  | _, _ => false

def inner : Pair → List Char
  | last v => v.display
  | cons v tail => v.display ++ ' ' :: inner tail
  | dotted v tail => v.display ++ ' ' :: '.' :: ' ' :: tail.display

def written (p : Pair) : List Char := '(' :: inner p ++ [')']

/-- The chain of some values, unless there are none. -/
def ofList? : List Value → Option Pair
  | [] => none
  | v :: vs =>
    match ofList? vs with
    | none => some (last v)
    | some tail => some (cons v tail)

end Pair

end SExpr
