import SExpr.Pair

/-!
# Chains

Lists of pairs, which share their tails: a list with a value in front of another one uses the
pairs of the other. The length is kept once it is known. `toList` is the sequence of values that a
chain stands for.
-/

namespace SExpr

/-- A list of pairs. -/
structure Chain where
  first : Option Pair := none
  count? : Option Nat := none

namespace Chain

def toList (c : Chain) : List Value :=
  match c.first with
  | none => []
  | some p => p.heads

def empty : Chain := {}

def ofList (vs : List Value) : Chain := { first := Pair.ofList? vs, count? := some vs.length }

def ofValue? (v : Value) : Option Chain := v.list?.map ofList

def toValue (c : Chain) : Value := .list c.toList

/-- The chain with a value in front. -/
def push (c : Chain) (v : Value) : Chain :=
  { first := some (match c.first with
      | none => .last v
      | some p => .cons v p)
    count? := c.count?.map (· + 1) }

def head? (c : Chain) : Option Value := c.first.map Pair.head

/-- All but the first value, unless there is none. -/
def tail? (c : Chain) : Option Chain := c.first.map fun p => { first := p.tail? }

/-- A walk along a chain: the pair whose value comes next, if there is one. -/
structure Walk where
  pair? : Option Pair

/-- The next value, and how the walk goes on. -/
def Walk.next? (w : Walk) : Option (Value × Walk) := w.pair?.map fun p => (p.head, ⟨p.tail?⟩)

/-- The value that comes after so many others. -/
def Walk.get? (w : Walk) : Nat → Option Value
  | 0 => w.next?.map Prod.fst
  | i + 1 => w.next?.bind fun (_, w) => w.get? i

def walk (c : Chain) : Walk := ⟨c.first⟩

def get? (c : Chain) (i : Nat) : Option Value := c.walk.get? i

def length (c : Chain) : Nat := c.count?.getD c.toList.length

/-- The chain with its length known. -/
def measured (c : Chain) : Chain := { c with count? := some c.length }

def isEmpty (c : Chain) : Bool := c.first.isNone

/-- Chains are equal if their values are. -/
def eq (c d : Chain) : Bool := Value.eqAll c.toList d.toList

def written (c : Chain) : List Char :=
  match c.first with
  | none => ['(', ')']
  | some p => p.written

/-- The value, or one equal to it, occurs. -/
def contains (c : Chain) (v : Value) : Bool := c.toList.any (· == v)

/-- The values, each at its first occurrence only. -/
def firsts (vs : List Value) : List Value :=
  vs.foldl (fun out v => if out.any (· == v) then out else out ++ [v]) []

def append (c d : Chain) : Chain := ofList (c.toList ++ d.toList)

/-- The values of either chain, each at its first occurrence only. -/
def union (c d : Chain) : Chain := ofList (firsts (c.toList ++ d.toList))

/-- The values that occur in both chains, each once, in the order of the first. -/
def inter (c d : Chain) : Chain := ofList (firsts (c.toList.filter d.contains))

/-- The values of the first chain that do not occur in the second. -/
def diff (c d : Chain) : Chain := ofList (c.toList.filter fun v => !d.contains v)

end Chain

end SExpr
