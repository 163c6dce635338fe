import SExpr.Compact
import SExpr.Dialect.Sparql.Memory
import SExpr.Dialect.Structure
import SExpr.Text.Lowercase

/-!
# SPARQL expressions

The SPARQL dialect has lists in either bracket, comments, and RDF terms: IRIs, literals with a
language or a datatype, blank nodes and variables. Numbers and booleans are literals too.
-/

namespace SExpr.Dialect

namespace Sparql

open ReadM (onMemory fail)

/-- The variable that a literal is: its sigil, doubled or with a point if the variable is not
distinguished, and its name. -/
def queryVar? (text : List Char) : Option Variable :=
  match text with
  | [] => none
  | sigil :: rest =>
    if sigil = '?' ∨ sigil = '$' then
      match rest with
      | [] => some { name := "", existential := sigil == '$' }
      | c :: name =>
        if c = sigil ∨ c = '.' then
          some { name := String.ofList name, distinguished := false, existential := sigil == '$' }
        else some { name := String.ofList rest, existential := sigil == '$' }
    else none

/-- The value of a literal, other than a symbol's meaning. -/
def atom (text : List Char) : Remembering Value := fun m =>
  let name := String.ofList text
  let is (word : String) : Bool := Text.sameIgnoringCase text word.toList
  if name = "." then (.symbol name, m)
  else if name = "a" then mention (.iri .rdfType) m
  else if is "base" then (.symbol name, { m with awaitsBase := true })
  else if is "nil" then (.nil, m)
  else if is "true" then mention (.literal (.xsd "true" "boolean")) m
  else if is "false" then mention (.literal (.xsd "false" "boolean")) m
  else if Numeral.isDouble text then mention (.literal (.xsd name "double")) m
  else if Numeral.isDecimal text then mention (.literal (.xsd name "decimal")) m
  else if Numeral.isSignedDigits text then mention (.literal (.xsd name "integer")) m
  else
    match Text.after? ['_', ':'] text with
    | some id => blankNode (String.ofList id) m
    | none =>
      match queryVar? text with
      | some v => namedVariable v m
      | none => (.symbol name, m)

def lexicon : Lexicon Memory where
  name := "sparql"
  spelling := .sparql
  brackets := [.round, .square]
  atom text _ := onMemory (atom text)

/-- What follows an opening angle bracket at `p`: the operators `<` and `<=`, or an IRI. -/
def angle (p : Pos) : ReadM Memory Value := do
  match ← Cursor.peek with
  | none => return .symbol "<"
  | some c =>
    if !lexicon.isAtomChar c then return .symbol "<"
    else if c = '=' then
      let _ ← Cursor.take?
      return .symbol "<="
    else onMemory (iri (← Lexeme.bracketedIri p))

/-- The datatype that the next token is: an IRI, or a symbol taken for one. -/
def datatype (token : ReadM Memory Token) : ReadM Memory Iri := do
  let p ← Cursor.here
  match ← token with
  | .ended => fail (.endOfInput .datatype) p
  | .opener b => fail (.notDatatype (String.singleton b.opening)) p
  | .closer b => fail (.notDatatype (String.singleton b.closing)) p
  | .value v =>
    match v with
    | .term _ (.iri i) => return i
    | .atom (.symbol name) => return { text := name }
    | _ => fail (.notDatatype (String.ofList v.display)) p

/-- A literal in quotes, with its language or datatype. -/
def quoted (datatype : ReadM Memory Iri) : ReadM Memory Value := do
  let (text, quote) ← Lexeme.string
  let plain : Literal := { value := String.ofList text, quote }
  match ← Cursor.peek with
  | some '@' =>
    let _ ← Cursor.take?
    let tag := String.ofList (Text.lowercase (← lexicon.literal))
    onMemory (mention (.literal { plain with language := some tag }))
  | some '^' =>
    let p ← Cursor.here
    let _ ← Cursor.take?
    let c ← Cursor.take .datatype
    if c = '^' then
      let iri ← datatype
      onMemory (mention (.literal { plain with datatype := some iri }))
    else fail (.notDatatype (String.ofList ['^', c])) p
  | _ => onMemory (mention (.literal plain))

/-- A token, where a literal's datatype is read as given. -/
def tokenWith (datatype : ReadM Memory Iri) : ReadM Memory Token := do
  let p ← Cursor.here
  match ← Cursor.peek with
  | some '"' => return .value (← quoted datatype)
  | some '\'' => return .value (← quoted datatype)
  | some '<' =>
    let _ ← Cursor.take?
    return .value (← angle p)
  | _ =>
    let token ← lexicon.basicToken
    onMemory fun m => ((), m.seen token)
    match token with
    | .value (.atom (.symbol name)) => return .value (← onMemory (symbol name.toList))
    | token => return token

/-- A token. A datatype is itself a token, so there can be one inside the other, but no more of
them than `allowance` has elements. -/
def tokenIn {γ : Type} : List γ → ReadM Memory Token
  | [] => tokenWith (datatype (return .ended))
  | _ :: allowance => tokenWith (datatype (tokenIn allowance))

def token : ReadM Memory Token := fun s => tokenIn s.cursor.located s

/-- Only the length of the allowance matters. -/
theorem tokenIn_of_length_eq {γ δ : Type} {xs : List γ} {ys : List δ}
    (h : xs.length = ys.length) : tokenIn xs = tokenIn ys := by
  induction xs generalizing ys with
  | nil =>
    obtain rfl := List.eq_nil_of_length_eq_zero h.symm
    rfl
  | cons x xs ih =>
    cases ys with
    | nil => cases h
    | cons y ys =>
      unfold tokenIn
      rw [ih (Nat.succ.inj h)]

/-- The characters not yet taken are allowance enough. -/
theorem token_def (s : Session Memory) : token s = tokenIn s.cursor.unread s :=
  congrArg (· s) (tokenIn_of_length_eq s.cursor.length_located)

end Sparql

/-- Lists in either bracket, comments and RDF terms. -/
def sparql : Dialect Sparql.Memory where
  toLexicon := Sparql.lexicon
  trivia _ := Lexeme.skipComments [';', '#']
  token _ := Sparql.token

end SExpr.Dialect
