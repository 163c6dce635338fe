import SExpr.Dialect.Structure

/-!
# Common Lisp

The Common Lisp dialect has round lists, comments, symbols between bars, the marks `'` and `#'`,
vectors, characters and integers in a radix. What `t` and `nil` stand for, and the symbols that
the marks stand for, can be chosen.
-/

namespace SExpr.Dialect

namespace CommonLisp

/-- What the dialect puts in place of its words and marks. -/
structure Options where
  /-- What `nil` stands for, in any case. -/
  nil : Value := .nil
  /-- What `t` stands for, in any case. -/
  t : Value := .bool true
  /-- The first item of the list that a quote stands for. -/
  quote : String := "quote"
  /-- The first item of the list that a sharp quote stands for. -/
  function : String := "function"

/-- A literal as one of the words, a number or a symbol. -/
def atom (options : Options) (text : List Char) (p : Pos) : ReadM Unit Value :=
  if Text.sameIgnoringCase text ['t'] then return options.t
  else if Text.sameIgnoringCase text ['n', 'i', 'l'] then return options.nil
  else plainAtom text p

def lexicon (options : Options) : Lexicon Unit where
  name := "common-lisp"
  spelling := .commonLisp
  brackets := [.round]
  atom := atom options

/-- The list of a symbol and the datum after a mark that stands at `p`. -/
def marked (nested : Nested Unit) (head : String) (p : Pos) : ReadM Unit Value := do
  return .list [.symbol head, ← nested.datum p]

/-- The value after a sharp sign that stands at `p`. -/
def sharp (options : Options) (nested : Nested Unit) (p : Pos) : ReadM Unit Value := do
  let c ← Cursor.take .value
  if c = 'b' ∨ c = 'B' then (lexicon options).radixInteger 2
  else if c = 'o' ∨ c = 'O' then (lexicon options).radixInteger 8
  else if c = 'x' ∨ c = 'X' then (lexicon options).radixInteger 16
  else if c = '\\' then (lexicon options).character
  else if c = '(' then return .vector (← nested.items .round p)
  else if c = '\'' then marked nested options.function p
  else ReadM.fail (.unknownSharp c) p

/-- A token: sharp syntax, a symbol between bars, a quoted datum, or one that all dialects have. -/
def token (options : Options) (nested : Nested Unit) : ReadM Unit Token := do
  let p ← Cursor.here
  match ← Cursor.peek with
  | some '#' =>
    let _ ← Cursor.take?
    return .value (← sharp options nested p)
  | some '|' =>
    let _ ← Cursor.take?
    return .value (.symbol (String.ofList (← Lexeme.barredSymbol p)))
  | some '\'' =>
    let _ ← Cursor.take?
    return .value (← marked nested options.quote p)
  | _ => (lexicon options).basicToken

end CommonLisp

/-- Round lists, comments, bars, marks and sharp syntax. -/
def commonLisp (options : CommonLisp.Options) : Dialect Unit where
  toLexicon := CommonLisp.lexicon options
  trivia _ := Lexeme.skipComments [';']
  token := CommonLisp.token options

end SExpr.Dialect
