import SExpr.Dialect.Structure

/-!
# Plain dialects

The basic dialect has round lists, strings, numbers and symbols. The extended one adds square
lists and comments to the end of the line.
-/

namespace SExpr.Dialect

def basicLexicon : Lexicon Unit where
  name := "basic"
  spelling := .plain
  brackets := [.round]
  atom := plainAtom

/-- Round lists, strings, numbers and symbols. -/
def basic : Dialect Unit where
  toLexicon := basicLexicon
  trivia _ := Lexeme.skipBlanks
  token _ := basicLexicon.basicToken

def extendedLexicon : Lexicon Unit where
  name := "extended"
  spelling := .plain
  brackets := [.round, .square]
  atom := plainAtom

/-- Lists in either bracket, and comments that begin with a semicolon. -/
def extended : Dialect Unit where
  toLexicon := extendedLexicon
  trivia _ := Lexeme.skipComments [';']
  token _ := extendedLexicon.basicToken

end SExpr.Dialect
