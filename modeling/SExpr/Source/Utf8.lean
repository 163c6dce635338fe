import SExpr.Failure

/-!
# UTF-8

Bytes are decoded one after the other, in pieces of any size. A character may be unfinished
between two bytes; then it is known which bytes may come next. Decoding stops at the first byte
that cannot, and what was begun there is the longest beginning of a character that the bytes
hold.
-/

namespace SExpr.Utf8

/-- A character of which some bytes have been read. -/
structure Unfinished where
  bytes : List UInt8
  /-- The code point's bits read. -/
  code : Nat
  owed : Nat
  /-- The next byte lies between `low` and `high`. -/
  low : Nat := 0x80
  high : Nat := 0xBF

/-- The character begun by a byte, unless no character begins with it. Overlong forms, surrogates
and numbers above the last code point are ruled out by the range of the second byte. -/
def first? (b : UInt8) : Option Unfinished :=
  let n := b.toNat
  if n < 0x80 then some { bytes := [b], code := n, owed := 0 }
  else if n < 0xC2 then none
  else if n < 0xE0 then some { bytes := [b], code := n - 0xC0, owed := 1 }
  else if n = 0xE0 then some { bytes := [b], code := 0, owed := 2, low := 0xA0 }
  else if n = 0xED then some { bytes := [b], code := n - 0xE0, owed := 2, high := 0x9F }
  else if n < 0xF0 then some { bytes := [b], code := n - 0xE0, owed := 2 }
  else if n = 0xF0 then some { bytes := [b], code := 0, owed := 3, low := 0x90 }
  else if n < 0xF4 then some { bytes := [b], code := n - 0xF0, owed := 3 }
  else if n = 0xF4 then some { bytes := [b], code := 4, owed := 3, high := 0x8F }
  else none

/-- The character continued by a byte, unless the byte cannot come next. -/
def Unfinished.next? (u : Unfinished) (b : UInt8) : Option Unfinished :=
  if u.low ≤ b.toNat ∧ b.toNat ≤ u.high then
    some { bytes := u.bytes ++ [b], code := u.code * 64 + (b.toNat - 0x80), owed := u.owed - 1 }
  else none

/-- What has been decoded so far. Bytes can be fed to a decoder in pieces of any size. -/
structure Decoder where
  /-- The characters decoded, the last one first. -/
  chars : List Char := []
  unfinished : Option Unfinished := none
  /-- Where decoding stopped: a byte that begins no character, or the beginning of a character
  that is not continued. -/
  rejected : Option (List UInt8) := none

namespace Decoder

/-- Takes in the next piece of a character, of which `seen` are the bytes if it cannot go on. -/
def accept (d : Decoder) (seen : List UInt8) : Option Unfinished → Decoder
  | none => { d with unfinished := none, rejected := some seen }
  | some u =>
    if u.owed = 0 then { d with chars := Char.ofNat u.code :: d.chars, unfinished := none }
    else { d with unfinished := some u }

/-- Decodes one byte more, unless decoding has stopped. -/
def step (d : Decoder) (b : UInt8) : Decoder :=
  if d.rejected.isSome then d
  else
    match d.unfinished with
    | none => d.accept [b] (first? b)
    | some u => d.accept u.bytes (u.next? b)

def feed (d : Decoder) (bytes : List UInt8) : Decoder := bytes.foldl step d

/-- Why there are no more characters when all bytes have been fed, if there is a reason. A character
that was cut short is blamed on the stream if that has failed. -/
def fault? (d : Decoder) (failing : Option String) : Option Fault :=
  match d.rejected, failing, d.unfinished with
  | some bytes, _, _ => some (.invalidBytes bytes)
  | none, some reason, _ => some (.interrupted reason)
  | none, none, some u => some (.invalidBytes u.bytes)
  | none, none, none => none

/-- The answers of a decoder that is asked for more again and again: for each piece the characters
that it completes, and then why there are no more. -/
def answers (failing : Option String) (d : Decoder) :
    List (List UInt8) → List (Except Fault (List Char))
  | [] => (d.fault? failing).toList.map .error
  | chunk :: chunks =>
    let d := { d with chars := [] }.feed chunk
    .ok d.chars.reverse :: answers failing d chunks

end Decoder

/-- The answers of a decoder to which bytes come in pieces. The stream may fail after them. -/
def answers (chunks : List (List UInt8)) (failing : Option String) :
    List (Except Fault (List Char)) :=
  Decoder.answers failing {} chunks

end SExpr.Utf8
