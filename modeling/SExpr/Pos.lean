/-!
# Positions

Where a character stands in a text: lines and columns count from zero, columns in characters.
-/

namespace SExpr

/-- A place in a text, by line and column, both counted from zero. -/
structure Pos where
  line : Nat
  col : Nat
  deriving DecidableEq, Repr

namespace Pos

def start : Pos := ⟨0, 0⟩

/-- The place of the character after `c`, if `c` stands at `p`. -/
def advance (p : Pos) (c : Char) : Pos :=
  if c = '\n' then ⟨p.line + 1, 0⟩ else ⟨p.line, p.col + 1⟩

/-- The place one column to the left, or the same one in the first column. -/
def back (p : Pos) : Pos := { p with col := p.col - 1 }

/-- The place after all of `cs`, if its first character stands at `p`. -/
def advanceAll (p : Pos) (cs : List Char) : Pos := cs.foldl advance p

/-- The characters of `cs`, each with its place, if the first stands at `p`. -/
def locate (p : Pos) : List Char → List (Char × Pos)
  | [] => []
  | c :: cs => (c, p) :: locate (p.advance c) cs

/-- As written in messages: lines are counted from one there. -/
def text (p : Pos) : String := s!"@{p.line + 1}.{p.col}"

end Pos

end SExpr
