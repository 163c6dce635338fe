import SExpr.Delimiter
import SExpr.Text.Blank

/-!
# Quoted strings

How a string is written: between quotes, with escapes for the backslash, the quote itself and
control characters, so that it stays on one line.
-/

namespace SExpr.Quoted

/-- The hexadecimal digit of a number below sixteen, letters in upper case. -/
def hexDigit (n : Nat) : Char := (Nat.digitChar n).toUpper

/-- The last four hexadecimal digits of a number. -/
def fourHexDigits (n : Nat) : List Char :=
  [n / 4096 % 16, n / 256 % 16, n / 16 % 16, n % 16].map hexDigit

def escape (quote : Quote) (c : Char) : List Char :=
  if c = '\\' then ['\\', '\\']
  else if c = '\n' then ['\\', 'n']
  else if c = '\r' then ['\\', 'r']
  else if c = '\t' then ['\\', 't']
  else if c = '\x08' then ['\\', 'b']
  else if c = '\x0c' then ['\\', 'f']
  else if c = quote.char then ['\\', c]
  else if Text.isControl c then '\\' :: 'u' :: fourHexDigits c.toNat
  else [c]

def written (quote : Quote) (cs : List Char) : List Char :=
  quote.char :: cs.flatMap (escape quote) ++ [quote.char]

end SExpr.Quoted
