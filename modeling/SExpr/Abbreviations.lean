import SExpr.Numeral
import SExpr.Quoted
import SExpr.Text.Numeric

/-!
# Abbreviations

IRIs can be written as prefixed names, by a table of namespaces, or relative to a base. This
module holds the abbreviations in force, the forms that change them for a part of a value, and the
text of terms under them.
-/

namespace SExpr

open Text

/-- Namespaces by the names that stand for them, in ascending order of the names. -/
abbrev Namespaces := List (String × String)

namespace Namespaces

def find? (table : Namespaces) (name : String) : Option String := table.lookup name

/-- Lets `name` stand for `iri`, whatever it stood for before. -/
def bind (name iri : String) : Namespaces → Namespaces
  | [] => [(name, iri)]
  | (n, i) :: table =>
    if name = n then (name, iri) :: table
    else if name < n then (name, iri) :: (n, i) :: table
    else (n, i) :: bind name iri table

end Namespaces

/-- What IRIs may be abbreviated with. -/
structure Abbreviations where
  namespaces : Namespaces := []
  base : Option String := none

namespace Abbreviations

/-- The abbreviations with one more name, if the list defines one: a symbol, perhaps ending in a
colon, and an IRI. -/
def define (ab : Abbreviations) : Value → Abbreviations
  | .list [.atom (.symbol name), .term _ (.iri i)] =>
    let cs := name.toList
    let name := if cs.getLast? = some ':' then String.ofList cs.dropLast else name
    { ab with namespaces := ab.namespaces.bind name i.text }
  | _ => ab

/-- The abbreviations in force after the first two items of a list, if the list changes them: a
`base` form with an IRI, or a `prefix` form with a list of definitions. -/
def forBody (ab : Abbreviations) : List Value → Option Abbreviations
  | .atom (.symbol head) :: .term _ (.iri i) :: _ :: _ =>
    if head = "base" then some { ab with base := some i.text } else none
  | .atom (.symbol head) :: .list definitions :: _ :: _ =>
    if head = "prefix" then some (definitions.foldl define ab) else none
  | _ => none

/-- The abbreviations in force for each item of a list. A form that changes them is itself written
without any. -/
def scope (ab : Abbreviations) (items : List Value) : Nat → Abbreviations :=
  match ab.forBody items with
  | none => fun _ => ab
  | some body => fun i => if i < 2 then {} else body

end Abbreviations

/-! ## Terms as written -/

/-- A name that is safe after the colon of a prefixed name. -/
def isLocalName (cs : List Char) : Bool :=
  (match cs with
    | [] => false
    | c :: _ => isAlphanumeric c || c == '_') &&
  cs.getLast? != some '.' &&
  cs.all fun c => isAlphanumeric c || c == '_' || c == '-' || c == '.'

namespace Iri

/-- The local name of an IRI in a namespace. -/
def localName? (i : Iri) (iri : String) : Option (List Char) :=
  (after? iri.toList i.text.toList).filter isLocalName

/-- The entry to abbreviate with: that of the longest namespace, and of equal ones the last. -/
def bestNamespace? (i : Iri) (table : Namespaces) : Option (String × String) :=
  (table.filter fun e => (i.localName? e.2).isSome).foldl (fun best e =>
    match best with
    | some b => if b.2.length ≤ e.2.length then some e else some b
    | none => some e) none

def prefixedName? (i : Iri) (table : Namespaces) : Option (List Char) :=
  (i.bestNamespace? table).bind fun e => (i.localName? e.2).map fun rest =>
    e.1.toList ++ ':' :: rest

/-- What follows the base can be resolved against it again: a plain last segment after a slash, or
a fragment that is not empty. -/
def isRelativeRest (base rest : List Char) : Bool :=
  (base.getLast? == some '/' && !rest.isEmpty && rest.head? != some '.' &&
    rest.all fun c => !(isBlank c || "/?#:<>".toList.contains c)) ||
  (rest.head? == some '#' && 1 < rest.length)

/-- The IRI in angle brackets, relative to the base. -/
def relative? (i : Iri) (base : Option String) : Option (List Char) :=
  base.bind fun base =>
    if base.toList.contains '#' then none
    else
      ((after? base.toList i.text.toList).filter (isRelativeRest base.toList)).map fun rest =>
        '<' :: rest ++ ['>']

/-- The text of an IRI: as it was written, or else abbreviated, or else in full. -/
def written (ab : Abbreviations) (i : Iri) : List Char :=
  match i.lexical with
  | some text => text.toList
  | none =>
    (i.prefixedName? ab.namespaces).getD <|
      (i.relative? ab.base).getD ('<' :: i.text.toList ++ ['>'])

end Iri

namespace Literal

/-- The value can stand alone and is read back as this literal. -/
def isBare (l : Literal) : Bool :=
  match l.datatype with
  | none => false
  | some i =>
    let cs := l.value.toList
    if i.text = Iri.xsdNamespace ++ "boolean" then l.value == "true" || l.value == "false"
    else if i.text = Iri.xsdNamespace ++ "integer" then (Numeral.integer? 10 cs).isSome
    else if i.text = Iri.xsdNamespace ++ "decimal" then Numeral.isDecimal cs
    else if i.text = Iri.xsdNamespace ++ "double" then Numeral.isDouble cs
    else false

/-- The text of a literal: bare, or quoted with its language or datatype. -/
def written (ab : Abbreviations) (l : Literal) : List Char :=
  if l.isBare then l.value.toList
  else
    Quoted.written l.quote l.value.toList ++
      match l.language, l.datatype with
      | some tag, _ => '@' :: tag.toList
      | none, some i => '^' :: '^' :: i.written ab
      | none, none => []

end Literal

def Term.written (ab : Abbreviations) : Term → List Char
  | iri i => i.written ab
  | literal l => l.written ab
  | blank b => '_' :: ':' :: b.id.toList
  | var v => v.sigil ++ v.name.toList

end SExpr
