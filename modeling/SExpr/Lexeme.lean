import SExpr.Cursor
import SExpr.Numeral
import SExpr.Spelling
import SExpr.Text.Blank

/-!
# Lexemes

The pieces of text that tokens are made of: blanks, comment lines, literals, strings with their
escapes, character names and integers in a given radix.
-/

namespace SExpr.Lexeme

open Cursor

/-! ## Blanks and comments -/

def skipBlanksRound (_ : Unit) : CursorM (Unit ⊕ Unit) := do
  match ← peek with
  | none => return .inr ()
  | some c =>
    if Text.isBlank c then
      let _ ← take?
      return .inl ()
    else return .inr ()

def skipBlanks : CursorM Unit := Cursor.loop skipBlanksRound ()

def skipLineRound (_ : Unit) : CursorM (Unit ⊕ Unit) := do
  match ← take? with
  | none => return .inr ()
  | some c => if c = '\n' then return .inr () else return .inl ()

/-- Takes the rest of a line, and the newline that ends it. -/
def skipLine : CursorM Unit := Cursor.loop skipLineRound ()

/-- A round of `skipComments`: blanks and one line. -/
def skipCommentsRound (starts : List Char) (_ : Unit) : CursorM (Unit ⊕ Unit) := do
  skipBlanks
  match ← peek with
  | none => return .inr ()
  | some c =>
    if starts.contains c then
      skipLine
      return .inl ()
    else return .inr ()

/-- Takes blanks and the lines that begin with one of the given characters. -/
def skipComments (starts : List Char) : CursorM Unit := Cursor.loop (skipCommentsRound starts) ()

/-! ## Literals

What has been taken is collected in reverse, here and below. -/

def literalRound (isAtomChar : Char → Bool) (taken : List Char) :
    CursorM (List Char ⊕ List Char) := do
  match ← peek with
  | none => return .inr taken.reverse
  | some c =>
    if isAtomChar c then
      let _ ← take?
      return .inl (c :: taken)
    else return .inr taken.reverse

/-- Takes characters of the given class, as many as there are. -/
def literal (isAtomChar : Char → Bool) : CursorM (List Char) :=
  Cursor.loop (literalRound isAtomChar) []

/-! ## Strings -/

/-- Takes `count` hexadecimal digits; the result is the number whose digits follow those of `n`. -/
def hexNumber (n : Nat) : Nat → CursorM Nat
  | 0 => return n
  | count + 1 => do
    let p ← here
    let c ← take .escape
    match Numeral.digitValue? 16 c with
    | some d => hexNumber (n * 16 + d) count
    | none => throw ⟨.notHexDigit c, p⟩

/-- A number that is the code of a character: no surrogate, and not too large. -/
def charOfCode? (n : Nat) : Option Char :=
  if n.isValidChar then some (Char.ofNat n) else none

/-- The character named by `count` hexadecimal digits. -/
def hexChar (count : Nat) : CursorM Char := do
  let p ← here
  let n ← hexNumber 0 count
  match charOfCode? n with
  | some c => return c
  | none => throw ⟨.notCodePoint n, p⟩

/-- The character that an escape stands for, after its backslash. A character without a meaning of
its own stands for itself. -/
def escape : CursorM Char := do
  let c ← take .escape
  if c = 'b' then return '\x08'
  else if c = 'f' then return '\x0c'
  else if c = 'n' then return '\n'
  else if c = 'r' then return '\r'
  else if c = 't' then return '\t'
  else if c = 'u' then hexChar 4
  else if c = 'U' then hexChar 8
  else return c

/-- A round of `string`: one character or escape, or the delimiter at the end. -/
def stringRound (delimiter : Char) (start : Pos) (taken : List Char) :
    CursorM (List Char ⊕ List Char) := do
  match ← take? with
  | none => throw ⟨.endOfInput (.delimiter delimiter), start⟩
  | some c =>
    if c = '\\' then return .inl ((← escape) :: taken)
    else if c = delimiter then return .inr taken.reverse
    else return .inl (c :: taken)

/-- A string, whose delimiter is the next character, and the quote that this is. -/
def string : CursorM (List Char × Quote) := do
  let start ← here
  let delimiter ← take .value
  let text ← Cursor.loop (stringRound delimiter start) []
  return (text, (Quote.ofChar? delimiter).getD .double)

/-! ## Characters, integers, symbols and IRIs -/

/-- The character meant by what follows a sharp sign and a backslash: a named one, or else the
first of the literal, whose rest is put back. Where no literal follows, it is the next character,
whatever that is. -/
def character (isAtomChar : Char → Bool) (sp : Spelling) : CursorM Char := do
  match ← literal isAtomChar with
  | [] => take .character
  | c :: rest =>
    match sp.charNamed? (c :: rest) with
    | some named => return named
    | none =>
      pushBack rest
      return c

def radixInteger (isAtomChar : Char → Bool) (radix : Nat) : CursorM Int := do
  let p ← here
  let text ← literal isAtomChar
  match Numeral.integer? radix text with
  | some n => return n
  | none => throw ⟨.malformedNumber radix (String.ofList text), p⟩

/-- Fails because the input ends within a symbol whose bar stands at `start`. -/
def unclosed {α : Type} (start : Pos) (taken : List Char) : CursorM α :=
  throw ⟨.unclosedSymbol (String.ofList ('|' :: taken.reverse)), start⟩

/-- A round of `barredSymbol`: one character, perhaps after a backslash, or the bar at the end. -/
def barredSymbolRound (start : Pos) (taken : List Char) : CursorM (List Char ⊕ List Char) := do
  match ← take? with
  | none => unclosed start taken
  | some c =>
    if c = '|' then return .inr taken.reverse
    else if c = '\\' then
      match ← take? with
      | none => unclosed start taken
      | some c => return .inl (c :: taken)
    else return .inl (c :: taken)

/-- A symbol after its opening bar; a backslash takes the character after it as it is. `start` is
the place of the bar. -/
def barredSymbol (start : Pos) : CursorM (List Char) := Cursor.loop (barredSymbolRound start) []

def bracketedIriRound (start : Pos) (taken : List Char) : CursorM (List Char ⊕ List Char) := do
  match ← take? with
  | none => throw ⟨.endOfInput .iri, start⟩
  | some c => if c = '>' then return .inr taken.reverse else return .inl (c :: taken)

/-- The rest of an IRI up to its closing bracket. `start` is the place of the opening one. -/
def bracketedIri (start : Pos) : CursorM (List Char) := Cursor.loop (bracketedIriRound start) []

end SExpr.Lexeme
