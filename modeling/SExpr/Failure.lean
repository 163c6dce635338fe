import SExpr.Delimiter
import SExpr.Pos

/-!
# Failures

Why reading stopped, and where. Each cause is a constructor; the wording of all of them is in
`Cause.message`, and `Failure.message` adds the place.
-/

namespace SExpr

/-- What was being read when the input ended. -/
inductive Awaited where
  | value
  | close (bracket : Bracket)
  | delimiter (c : Char)
  | iri
  | character
  | escape
  | datatype
  deriving DecidableEq, Repr

def Awaited.description : Awaited → String
  | value => "a value"
  | close b => s!"closing character '{b.closing}' for '{b.opening}'"
  | delimiter c => s!"closing delimiter '{c}'"
  | iri => "'>' ending an IRI"
  | character => "a character after '#\\'"
  | escape => "the rest of an escape sequence"
  | datatype => "a datatype after '^^'"

/-- Why a source of characters broke off. -/
inductive Fault where
  /-- A byte that begins no character, or the beginning of a character that is not continued. -/
  | invalidBytes (bytes : List UInt8)
  | interrupted (reason : String)
  deriving DecidableEq, Repr

def hexByte (b : UInt8) : String :=
  String.ofList [Nat.digitChar (b.toNat / 16), Nat.digitChar (b.toNat % 16)]

/-- The fault at place `p` of the decoded text, in words. -/
def Fault.message (p : Pos) : Fault → String
  | invalidBytes bytes =>
    let list := String.intercalate ", " (bytes.map hexByte)
    s!"invalid UTF-8 input at {p.text}: invalid byte sequence: [{list}]"
  | interrupted reason => s!"invalid UTF-8 input at {p.text}: underlying bytestream error: {reason}"

/-- Why reading failed. -/
inductive Cause where
  /-- The source broke off at the given place of the decoded text. -/
  | source (fault : Fault) (place : Pos)
  | endOfInput (awaited : Awaited)
  /-- A closing bracket that does not match the innermost open list, if there is one. -/
  | strayCloser (expected : Option Bracket) (got : Bracket)
  | malformedNumber (radix : Nat) (literal : String)
  /-- No syntax begins with `#` and this character. -/
  | unknownSharp (c : Char)
  /-- The input ended inside a symbol between bars. -/
  | unclosedSymbol (text : String)
  | notHexDigit (c : Char)
  /-- An escape names a number that is no character. -/
  | notCodePoint (code : Nat)
  | tooDeep
  /-- What follows `^^` is neither an IRI nor a prefixed name. -/
  | notDatatype (text : String)
  deriving DecidableEq, Repr

def Cause.message : Cause → String
  | source fault place => s!"IO error ({fault.message place})"
  | endOfInput awaited => s!"unexpected end of input while expecting {awaited.description}"
  | strayCloser (some b) got =>
    s!"unexpected list terminator '{got.closing}', expecting '{b.closing}'"
  | strayCloser none got => s!"unexpected list terminator '{got.closing}' outside of any list"
  | malformedNumber radix literal => s!"illegal base-{radix} number syntax: {literal}"
  | unknownSharp c => s!"invalid sharp-sign read syntax: #{c}"
  | unclosedSymbol text => s!"invalid symbol syntax: {text}"
  | notHexDigit c => s!"not a hex digit: '{c}'"
  | notCodePoint code => s!"invalid code point {code}"
  | tooDeep => "nesting too deep"
  | notDatatype text => s!"expecting an IRI or prefixed name as datatype, got {text}"

/-- A cause and the place it is reported at. -/
structure Failure where
  cause : Cause
  pos : Pos
  deriving DecidableEq, Repr

/-- The failure in words, with its place. -/
def Failure.message (f : Failure) : String := s!"{f.cause.message} {f.pos.text}"

end SExpr
