/-!
# Cutting texts

Texts are cut at the first place where a character occurs.
-/

namespace SExpr.Text

/-- What stands before the first `c`, and what stands after it, if `c` occurs at all. -/
def cutAt (c : Char) (cs : List Char) : List Char × Option (List Char) :=
  (cs.takeWhile (· != c), (cs.dropWhile (· != c)).tail?)

/-- What follows `start`, if the text begins with it. -/
def after? (start : List Char) (cs : List Char) : Option (List Char) :=
  match start, cs with
  | [], cs => some cs
  | _ :: _, [] => none
  | a :: start, c :: cs => if a = c then after? start cs else none

end SExpr.Text
