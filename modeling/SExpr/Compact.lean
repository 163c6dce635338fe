import SExpr.Abbreviations
import SExpr.Spelling

/-!
# Compact text

The text of a value on one line. A symbol that would be read as something else is written between
bars.
-/

namespace SExpr

namespace Symbol

/-- The bare name would be read as something else: a number, one of the dialect's words, a
comment, a string or another syntax. -/
def needsBars (sp : Spelling) (cs : List Char) : Bool :=
  cs.isEmpty ||
  (cs.any fun c => Text.isBlank c || "()[]|\\".toList.contains c) ||
  (match cs with
    | [] => false
    | c :: _ => "'#;\"".toList.contains c) ||
  ([sp.nil, sp.yes, sp.no].any fun word => Text.sameIgnoringCase cs word.toList) ||
  (match Numeral.atom cs with
    | .ok (.symbol _) => false
    | _ => true)

def escape (c : Char) : List Char := if c = '|' ∨ c = '\\' then ['\\', c] else [c]

def written (sp : Spelling) (cs : List Char) : List Char :=
  if needsBars sp cs then '|' :: cs.flatMap escape ++ ['|'] else cs

end Symbol

def Atom.written (sp : Spelling) : Atom → List Char
  | nil => sp.nil.toList
  | bool true => sp.yes.toList
  | bool false => sp.no.toList
  | char c => '#' :: '\\' :: ((sp.nameOf? c).map String.toList).getD [c]
  | string text quote => Quoted.written quote text.toList
  | symbol name => Symbol.written sp name.toList
  | number n => n.written

namespace Value

mutual

/-- The text of a value on one line. -/
def compact (sp : Spelling) (ab : Abbreviations) : Value → List Char
  | atom a => a.written sp
  | list items => '(' :: [' '].intercalate (compactAll sp (ab.scope items) 0 items) ++ [')']
  | vector items =>
    '#' :: '(' :: [' '].intercalate (compactAll sp (ab.scope items) 0 items) ++ [')']
  | term _ t => t.written ab

/-- The texts of the items of a list from the `i`-th on. -/
def compactAll (sp : Spelling) (scope : Nat → Abbreviations) (i : Nat) :
    List Value → List (List Char)
  | [] => []
  | v :: vs => compact sp (scope i) v :: compactAll sp scope (i + 1) vs

end

/-- The text of a value where no dialect is given. -/
def display (v : Value) : List Char := v.compact .scheme {}

end Value

end SExpr
