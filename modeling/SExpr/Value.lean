import SExpr.Number
import SExpr.Term

/-!
# Values

What is read and written: atoms, lists, vectors and RDF terms. Equality is that of the things
meant; it is reflexive except for NaN. A term also carries a handle, which tells apart two
mentions of equal terms and identifies two mentions of the same one.
-/

namespace SExpr

/-- A value without parts. -/
inductive Atom where
  | nil
  | bool (b : Bool)
  | char (c : Char)
  | string (text : String) (quote : Quote)
  | symbol (name : String)
  | number (n : Number)

namespace Atom

/-- Atoms are equal if they are of one kind with equal contents; strings also by their quotes. -/
def eq : Atom → Atom → Bool
  | nil, nil => true
  | bool a, bool b => a == b
  | char c, char d => c == d
  | string s p, string t q => s == t && decide (p = q)
  | symbol s, symbol t => s == t
  | number m, number n => m == n
  | _, _ => false

instance : BEq Atom := ⟨eq⟩

end Atom

inductive Value where
  | atom (a : Atom)
  | list (items : List Value)
  | vector (items : List Value)
  | term (handle : Nat) (t : Term)

namespace Value

/-- The value that stands for nothing. -/
abbrev nil : Value := atom .nil

abbrev bool (b : Bool) : Value := atom (.bool b)

abbrev symbol (name : String) : Value := atom (.symbol name)

mutual

/-- Equality of values, whatever the handles of their terms. -/
def eq : Value → Value → Bool
  | atom a, atom b => a == b
  | list vs, list ws => eqAll vs ws
  | vector vs, vector ws => eqAll vs ws
  | term _ t, term _ u => t.eq u
  | _, _ => false

/-- Equality of values item by item. -/
def eqAll : List Value → List Value → Bool
  | [], [] => true
  | v :: vs, w :: ws => eq v w && eqAll vs ws
  | _, _ => false

end

instance : BEq Value := ⟨eq⟩

def isNil : Value → Bool
  | atom .nil => true
  | _ => false

def symbol? : Value → Option String
  | atom (.symbol name) => some name
  | _ => none

def list? : Value → Option (List Value)
  | list items => some items
  | _ => none

def term? : Value → Option Term
  | term _ t => some t
  | _ => none

def iri? : Value → Option Iri
  | term _ (.iri i) => some i
  | _ => none

/-- Both values are the same mention of a term, not just equal terms. -/
def sameTerm : Value → Value → Bool
  | term h _, term k _ => h == k
  | _, _ => false

mutual

/-- The term mentions in a value, in reading order. -/
def terms : Value → List Value
  | atom _ => []
  | list items => termsAll items
  | vector items => termsAll items
  | term h t => [term h t]

/-- The term mentions in some values, in reading order. -/
def termsAll : List Value → List Value
  | [] => []
  | v :: vs => terms v ++ termsAll vs

end

end Value

end SExpr
