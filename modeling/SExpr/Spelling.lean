import SExpr.Text.Case

/-!
# Spellings

The words and names that reading and writing a dialect share: nil, the booleans, and names of
characters. Names are recognised in any case; of several names for a character the first is
written.
-/

namespace SExpr

/-- The words of a dialect. -/
structure Spelling where
  nil : String
  yes : String
  no : String
  charNames : List (String × Char)

namespace Spelling

def charNamed? (s : Spelling) (name : List Char) : Option Char :=
  (s.charNames.find? fun e => Text.sameIgnoringCase e.1.toList name).map Prod.snd

def nameOf? (s : Spelling) (c : Char) : Option String :=
  (s.charNames.find? fun e => e.2 == c).map Prod.fst

/-- Sharp words, and no names of characters. -/
def plain : Spelling where
  nil := "#n"
  yes := "#t"
  no := "#f"
  charNames := []

def scheme : Spelling where
  nil := "#n"
  yes := "#t"
  no := "#f"
  charNames := [("newline", '\n'), ("space", ' ')]

/-- The words of Common Lisp, where false is nil. -/
def commonLisp : Spelling where
  nil := "nil"
  yes := "t"
  no := "nil"
  charNames :=
    [("newline", '\n'), ("space", ' '), ("backspace", '\x08'), ("tab", '\t'), ("linefeed", '\n'),
     ("page", '\x0c'), ("return", '\r'), ("rubout", '\x7f')]

/-- The words of SPARQL expressions, where a sharp sign begins a comment. -/
def sparql : Spelling where
  nil := "nil"
  yes := "true"
  no := "false"
  charNames := []

end Spelling

end SExpr
