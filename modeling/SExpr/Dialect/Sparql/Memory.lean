import SExpr.Abbreviations
import SExpr.Dialect
import SExpr.Reference

/-!
# What a SPARQL session remembers

The abbreviations defined so far; the blank nodes and variables that have been named, so that
every mention of a name is the same term; and where the reader stands with a `prefix` or `base`
form.
-/

namespace SExpr.Dialect.Sparql

open Text

/-- What a session remembers. -/
structure Memory where
  abbreviations : Abbreviations := {}
  blanks : List (String × Value) := []
  vars : List (String × Value) := []
  /-- How many lists are open. -/
  depth : Nat := 0
  /-- While a `prefix` form is read, the depth of its list of definitions. -/
  region : Option Nat := none
  /-- A name that waits for the IRI it is to stand for. -/
  awaitedName : Option String := none
  /-- The next IRI is the new base. -/
  awaitsBase : Bool := false
  /-- The number for the next term without a name. -/
  fresh : Nat := 0
  handles : Nat := 0

/-- Something read that may change what is remembered. -/
abbrev Remembering (α : Type) := Memory → α × Memory

def Memory.define (m : Memory) (name iri : String) : Memory :=
  { m with abbreviations.namespaces := m.abbreviations.namespaces.bind name iri }

/-- A new mention of a term. -/
def mention (t : Term) : Remembering Value := fun m =>
  (.term m.handles t, { m with handles := m.handles + 1 })

/-! ## Blank nodes and variables -/

/-- The least number from `n` on that makes no name taken, looked for in so many rounds. As many
rounds as names are taken suffice. -/
def freeNumber (taken : Nat → Bool) : Nat → Nat → Nat
  | 0, n => n
  | rounds + 1, n => if taken n then freeNumber taken rounds (n + 1) else n

/-- A number that makes a name with the given stem which is not in the table. -/
def freeNumberFor (stem : String) (table : List (String × Value)) (n : Nat) : Nat :=
  freeNumber (fun k => (table.lookup s!"{stem}{k}").isSome) table.length n

/-- The blank node of the given name; without a name, a new one. -/
def blankNode (id : String) : Remembering Value := fun m =>
  if id.isEmpty then
    let n := freeNumberFor "b" m.blanks m.fresh
    mention (.blank { id := s!"b{n}" }) { m with fresh := n + 1 }
  else
    match m.blanks.lookup id with
    | some v => (v, m)
    | none =>
      let (v, m) := mention (.blank { id }) m
      (v, { m with blanks := (id, v) :: m.blanks })

/-- The variable of the given name, as it was first mentioned; without a name, a new one. -/
def namedVariable (v : Variable) : Remembering Value := fun m =>
  if v.name.isEmpty then
    let n := freeNumberFor "_g" m.vars m.fresh
    mention (.var { v with name := s!"_g{n}" }) { m with fresh := n + 1 }
  else
    match m.vars.lookup v.name with
    | some v => (v, m)
    | none =>
      let (u, m) := mention (.var v) m
      (u, { m with vars := (v.name, u) :: m.vars })

/-! ## Forms -/

/-- Keeps count of open lists. A `prefix` form is over when its list of definitions, or the form
itself, is. -/
def Memory.seen (m : Memory) : Token → Memory
  | .opener _ => { m with depth := m.depth + 1 }
  | .closer _ =>
    let depth := m.depth - 1
    let region := m.region.filter (· ≤ depth)
    { m with depth, region }
  | _ => m

/-- The meaning of a symbol: within a `prefix` form, a name that ends in a colon is to be defined;
the word `prefix` begins such a form; a prefixed name is an IRI; and any other symbol stands for
itself. -/
def symbol (cs : List Char) : Remembering Value := fun m =>
  let name := String.ofList cs
  if m.region.isSome && cs.getLast? == some ':' then
    (.symbol name, { m with awaitedName := some (String.ofList cs.dropLast) })
  else if sameIgnoringCase cs "prefix".toList then
    (.symbol name, { m with region := some (m.depth + 1) })
  else
    match cutAt ':' cs with
    | (_, none) => (.symbol name, m)
    | (short, some rest) =>
      match m.abbreviations.namespaces.find? (String.ofList short) with
      | none => (.symbol name, m)
      | some iri =>
        -- A sharp sign that the namespace brings along is not repeated.
        let rest := if iri.toList.contains '#' then (after? ['#'] rest).getD rest else rest
        mention (.iri { text := iri ++ String.ofList rest, lexical := some name }) m

/-- An IRI in angle brackets, resolved against the base. It becomes the base, or the namespace of
a name, if one is awaited. -/
def iri (raw : List Char) : Remembering Value := fun m =>
  let iri : Iri :=
    match m.abbreviations.base with
    | some base =>
      if Reference.isRelative raw then
        { text := String.ofList (Reference.resolve base.toList raw)
          lexical := some (String.ofList ('<' :: raw ++ ['>'])) }
      else { text := String.ofList raw }
    | none => { text := String.ofList raw }
  let m := if m.awaitsBase then
      { m with abbreviations.base := some iri.text, awaitsBase := false }
    else m
  let m := match m.awaitedName with
    | some name => { m.define name iri.text with awaitedName := none }
    | none => m
  mention (.iri iri) m

end SExpr.Dialect.Sparql
