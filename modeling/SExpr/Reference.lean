import SExpr.Text.Cut

/-!
# References

A reference names a resource, either in full or relative to a base. It is split into scheme,
authority, path, query and fragment; `compose` puts the parts together again; and `resolve` finds
what a reference means under a base.
-/

namespace SExpr

structure Reference where
  scheme : Option (List Char)
  authority : Option (List Char)
  path : List Char
  query : Option (List Char)
  fragment : Option (List Char)
  deriving DecidableEq, Repr

namespace Reference

open Text

/-- A scheme is a letter followed by letters, digits, `+`, `-` and `.`, all of them ASCII. -/
def isScheme : List Char → Bool
  | [] => false
  | c :: cs => c.isAlpha && cs.all fun c => c.isAlphanum || c == '+' || c == '-' || c == '.'

/-- Cuts off the scheme and its colon, if there is one. -/
def cutScheme (cs : List Char) : Option (List Char) × List Char :=
  match cutAt ':' cs with
  | (name, some rest) => if isScheme name then (some name, rest) else (none, cs)
  | (_, none) => (none, cs)

/-- Cuts off the two slashes and the authority after them, if they are there. -/
def cutAuthority (cs : List Char) : Option (List Char) × List Char :=
  match after? ['/', '/'] cs with
  | some rest => (some (rest.takeWhile (· != '/')), rest.dropWhile (· != '/'))
  | none => (none, cs)

def split (cs : List Char) : Reference :=
  let (cs, fragment) := cutAt '#' cs
  let (cs, query) := cutAt '?' cs
  let (scheme, cs) := cutScheme cs
  let (authority, path) := cutAuthority cs
  { scheme, authority, path, query, fragment }

/-- A part with the text that introduces it, or nothing. -/
def part (before : List Char) (p : Option (List Char)) (after : List Char) : List Char :=
  match p with
  | some cs => before ++ cs ++ after
  | none => []

def compose (r : Reference) : List Char :=
  part [] r.scheme [':'] ++ part ['/', '/'] r.authority [] ++ r.path ++ part ['?'] r.query [] ++
    part ['#'] r.fragment []

def isRelative (cs : List Char) : Bool :=
  (cutScheme (cs.takeWhile fun c => c != '/' && c != '?' && c != '#')).1.isNone

/-! ## Dot segments

The segments `.` and `..` of a path mean "here" and "one up". They are removed from left to
right; what is kept is collected in reverse. -/

/-- Without the last segment and its slash. -/
def dropSegment (kept : List Char) : List Char := (kept.dropWhile (· != '/')).tail

theorem length_dropWhile_le (p : Char → Bool) (cs : List Char) :
    (cs.dropWhile p).length ≤ cs.length :=
  (List.dropWhile_sublist p).length_le

/-- Removes the dot segments of `path`, after `kept` (in reverse) has been kept. -/
def removeDotsAfter (kept : List Char) (path : List Char) : List Char :=
  match path with
  | [] => kept.reverse
  | c :: tail =>
    let rest := tail.dropWhile (· != '/')
    if c = '/' then
      let segment := tail.takeWhile (· != '/')
      if segment = ['.'] ∨ segment = ['.', '.'] then
        let kept := if segment = ['.'] then kept else dropSegment kept
        if rest = [] then ('/' :: kept).reverse else removeDotsAfter kept rest
      else removeDotsAfter (segment.reverse ++ '/' :: kept) rest
    else
      let segment := c :: tail.takeWhile (· != '/')
      if segment = ['.'] ∨ segment = ['.', '.'] then removeDotsAfter kept rest.tail
      else removeDotsAfter (segment.reverse ++ kept) rest
termination_by path.length
decreasing_by
  all_goals
    have := length_dropWhile_le (· != '/') tail
    simp only [List.length_cons, List.length_tail]
    omega

def removeDots (path : List Char) : List Char := removeDotsAfter [] path

/-! ## Resolution -/

/-- A relative path, put in place of the last segment of the base's path. -/
def merge (base : Reference) (path : List Char) : List Char :=
  if base.authority.isSome && base.path.isEmpty then '/' :: path
  else (base.path.reverse.dropWhile (· != '/')).reverse ++ path

/-- What `r` means under `base`, part by part: what `r` leaves out is taken from the base. -/
def under (base r : Reference) : Reference :=
  if r.scheme.isSome then { r with path := removeDots r.path }
  else if r.authority.isSome then { r with scheme := base.scheme, path := removeDots r.path }
  else if r.path.isEmpty then
    { base with query := r.query.or base.query, fragment := r.fragment }
  else
    let path := if r.path.head? == some '/' then r.path else merge base r.path
    { base with path := removeDots path, query := r.query, fragment := r.fragment }

/-- The reference `ref` in full, as seen from `base`. -/
def resolve (base ref : List Char) : List Char := ((split base).under (split ref)).compose

end Reference

end SExpr
