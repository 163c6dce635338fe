import SExpr.Dialect.Structure
import SExpr.Text.Letter
import SExpr.Text.Lowercase

/-!
# Scheme

The Scheme dialect has lists in either bracket, comments, and syntax that begins with a sharp
sign: booleans, nil, characters, integers in a radix, comments that take out the next datum, and
lines that are comments.
-/

namespace SExpr.Dialect

def schemeLexicon : Lexicon Unit where
  name := "scheme"
  spelling := .scheme
  brackets := [.round, .square]
  atom := plainAtom

namespace Scheme

/-- A round of `trivia`: blanks, line comments and one comment that begins with a sharp sign. -/
def triviaRound (nested : Nested Unit) (_ : Unit) : ReadM Unit (Unit ⊕ Unit) := do
  Lexeme.skipComments [';']
  if (← Cursor.peek) = some '#' then
    let p ← Cursor.here
    let _ ← Cursor.take?
    match ← Cursor.peek with
    | some ';' =>
      let _ ← Cursor.take?
      let _ ← nested.datum p
      return .inl ()
    | some '!' =>
      Lexeme.skipLine
      return .inl ()
    | _ =>
      Cursor.pushBack ['#']
      return .inr ()
  else return .inr ()

/-- Takes blanks and comments. A sharp sign that begins something else is put back. -/
def trivia (nested : Nested Unit) : ReadM Unit Unit := ReadM.loop (triviaRound nested) ()

def radix? (c : Char) : Option Nat :=
  if c = 'b' ∨ c = 'B' then some 2
  else if c = 'o' ∨ c = 'O' then some 8
  else if c = 'd' ∨ c = 'D' then some 10
  else if c = 'x' ∨ c = 'X' then some 16
  else none

/-- The value of a word after a sharp sign. -/
def word? (text : List Char) : Option Value :=
  let word := String.ofList (Text.lowercase text)
  if word = "t" ∨ word = "true" then some (.bool true)
  else if word = "f" ∨ word = "false" then some (.bool false)
  else if word = "n" then some .nil
  else none

/-- The value after a sharp sign that stands at `p`. -/
def sharp (p : Pos) : ReadM Unit Value := do
  match ← Cursor.peek with
  | none => ReadM.fail (.endOfInput .value) (← Cursor.here)
  | some c =>
    if c = '\\' then
      let _ ← Cursor.take?
      schemeLexicon.character
    else
      match radix? c with
      | some radix =>
        let _ ← Cursor.take?
        schemeLexicon.radixInteger radix
      | none =>
        if Text.isLetter c then
          match word? (← schemeLexicon.literal) with
          | some v => return v
          | none => ReadM.fail (.unknownSharp c) p
        else ReadM.fail (.unknownSharp c) p

/-- A token: sharp syntax, or one that all dialects have. -/
def token : ReadM Unit Token := do
  if (← Cursor.peek) = some '#' then
    let p ← Cursor.here
    let _ ← Cursor.take?
    return .value (← sharp p)
  else schemeLexicon.basicToken

end Scheme

/-- Lists in either bracket, comments and sharp syntax. -/
def scheme : Dialect Unit where
  toLexicon := schemeLexicon
  trivia := Scheme.trivia
  token _ := Scheme.token

end SExpr.Dialect
