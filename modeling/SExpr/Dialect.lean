import SExpr.Session

/-!
# Dialects

A dialect says what its tokens are; how tokens make up lists is the same for all of them. What
stands inside a token or between two tokens may itself be a value or a list, as after a quote; so
the rules for tokens are given a way to read what is nested in them.
-/

namespace SExpr

/-- What the structure of lists is made of. -/
inductive Token where
  | ended
  | opener (bracket : Bracket)
  | closer (bracket : Bracket)
  | value (v : Value)

/-- The token that a character is by itself, if it is one of the given brackets. -/
def bracketToken? (brackets : List Bracket) (c : Char) : Option Token :=
  brackets.findSome? fun b =>
    if c = b.opening then some (.opener b) else if c = b.closing then some (.closer b) else none

/-- The characters of literals where the given brackets are used: all but blanks and brackets. -/
def isAtomChar (brackets : List Bracket) (c : Char) : Bool :=
  !Text.isBlank c && !(brackets.any fun b => c == b.opening || c == b.closing)

/-- How to read what is nested in a token. Both count as a level of nesting, and fail at the given
place if there is no room for it. -/
structure Nested (σ : Type) where
  /-- The value after a mark. -/
  datum : Pos → ReadM σ Value
  /-- The items of a list after its opening bracket, and the bracket that closes it. -/
  items : Bracket → Pos → ReadM σ (List Value)

/-- The words, brackets and atoms of a dialect. -/
structure Lexicon (σ : Type) where
  name : String
  spelling : Spelling
  brackets : List Bracket
  /-- The value that a literal stands for, which begins at the given place. -/
  atom : List Char → Pos → ReadM σ Value

/-- The rules of a dialect that remembers a `σ`. -/
structure Dialect (σ : Type) extends Lexicon σ where
  /-- Takes what may stand before a token: blanks and comments. -/
  trivia : Nested σ → ReadM σ Unit
  /-- Reads a token, where nothing stands before it. -/
  token : Nested σ → ReadM σ Token

namespace Lexicon

variable {σ : Type}

def isAtomChar (l : Lexicon σ) (c : Char) : Bool := SExpr.isAtomChar l.brackets c

/-- A literal of the dialect, as long as possible. -/
def literal (l : Lexicon σ) : CursorM (List Char) := Lexeme.literal l.isAtomChar

/-- The character after a sharp sign and a backslash. -/
def character (l : Lexicon σ) : CursorM Value := do
  return .atom (.char (← Lexeme.character l.isAtomChar l.spelling))

def radixInteger (l : Lexicon σ) (radix : Nat) : CursorM Value := do
  return .atom (.number (.integer (← Lexeme.radixInteger l.isAtomChar radix)))

/-- The tokens that all dialects have: brackets, strings in either quote, and literals. A
character that is none of these is taken alone. -/
def basicToken (l : Lexicon σ) : ReadM σ Token := do
  let p ← Cursor.here
  match ← Cursor.peek with
  | none => return .ended
  | some c =>
    match bracketToken? l.brackets c with
    | some token =>
      let _ ← Cursor.take?
      return token
    | none =>
      if (Quote.ofChar? c).isSome then
        let (text, quote) ← Lexeme.string
        return .value (.atom (.string (String.ofList text) quote))
      else
        match ← l.literal with
        | [] =>
          let c ← Cursor.take .value
          return .value (← l.atom [c] p)
        | text => return .value (← l.atom text p)

end Lexicon

/-- A literal as a number or a symbol. -/
def plainAtom {σ : Type} (text : List Char) (p : Pos) : ReadM σ Value :=
  match Numeral.atom text with
  | .ok a => return .atom a
  | .error cause => ReadM.fail cause p

end SExpr
