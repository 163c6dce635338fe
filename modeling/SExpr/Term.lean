import SExpr.Delimiter

/-!
# RDF terms

IRIs, literals, blank nodes and query variables. Two IRIs are equal if they name the same thing,
however they were written, and the quotes of a literal do not matter either.
-/

namespace SExpr

/-- An IRI. `lexical` is the text it was written as, if that differs from the IRI in angle
brackets: a prefixed name, the word `a`, or a relative reference. -/
structure Iri where
  text : String
  lexical : Option String := none
  deriving DecidableEq, Repr

namespace Iri

/-- IRIs are compared by what they name, not by how they were written. -/
def eq (i j : Iri) : Bool := decide (i.text = j.text)

def xsdNamespace : String := "http://www.w3.org/2001/XMLSchema#"

def rdfNamespace : String := "http://www.w3.org/1999/02/22-rdf-syntax-ns#"

/-- The standard datatype of the given name. -/
def xsd (name : String) : Iri := { text := xsdNamespace ++ name }

/-- The type predicate, as abbreviated by the word `a`. -/
def rdfType : Iri := { text := rdfNamespace ++ "type", lexical := some "a" }

end Iri

/-- A literal: a text with a language tag or a datatype. Numbers and booleans keep the text they
were written as. -/
structure Literal where
  value : String
  quote : Quote := .double
  language : Option String := none
  datatype : Option Iri := none
  deriving DecidableEq, Repr

namespace Literal

/-- Literals are compared by value, language and datatype, not by their quotes. -/
def eq (l m : Literal) : Bool :=
  decide (l.value = m.value) && decide (l.language = m.language) &&
    (match l.datatype, m.datatype with
      | none, none => true
      | some i, some j => i.eq j
      | _, _ => false)

def xsd (value datatype : String) : Literal := { value, datatype := some (.xsd datatype) }

end Literal

structure BlankNode where
  id : String
  deriving DecidableEq, Repr

/-- A query variable. A variable that is not distinguished acts like a blank node. -/
structure Variable where
  name : String
  distinguished : Bool := true
  existential : Bool := false
  deriving DecidableEq, Repr

/-- The characters in front of a variable's name. -/
def Variable.sigil (v : Variable) : List Char :=
  List.replicate (if v.distinguished then 1 else 2) (if v.existential then '$' else '?')

inductive Term where
  | iri (i : Iri)
  | literal (l : Literal)
  | blank (b : BlankNode)
  | var (v : Variable)
  deriving DecidableEq, Repr

namespace Term

/-- Terms are equal if they are of one kind and equal as such. -/
def eq : Term → Term → Bool
  | iri i, iri j => i.eq j
  | literal l, literal m => l.eq m
  | blank b, blank c => decide (b = c)
  | var v, var w => decide (v = w)
  | _, _ => false

end Term

end SExpr
