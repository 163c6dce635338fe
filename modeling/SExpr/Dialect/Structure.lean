import SExpr.Dialect

/-!
# Structure

How tokens make up values: lists are matched brackets, and nothing may be open at the end. The
depth of nesting is bounded by the session's limit; the recursion goes down with the room that is
left.

The entry points are `read` for one value, `readAll` for all of them, `next?` for one value after
the other, and `stream`, which repeats it. `parse` reads a text of its own.
-/

namespace SExpr.Dialect

open ReadM

variable {σ : Type}

/-- What comes next in a list. -/
inductive Item where
  | value (v : Value)
  | closer (bracket : Bracket) (p : Pos)
  | ended (p : Pos)

/-- The next item, with what may stand before it. -/
def item (d : Dialect σ) (nested : Nested σ) : ReadM σ Item := do
  d.trivia nested
  let p ← Cursor.here
  match ← d.token nested with
  | .ended => return .ended p
  | .opener b => return .value (.list (← nested.items b p))
  | .closer b => return .closer b p
  | .value v => return .value v

def value (d : Dialect σ) (nested : Nested σ) : ReadM σ Value := do
  match ← d.item nested with
  | .value v => return v
  | .closer b p => stray b p
  | .ended p => fail (.endOfInput .value) p

/-- A round of `items`: one value after those `taken` (in reverse), or the closing bracket. -/
def itemsRound (d : Dialect σ) (nested : Nested σ) (b : Bracket) (start : Pos)
    (taken : List Value) : ReadM σ (List Value ⊕ List Value) := do
  match ← d.item nested with
  | .value v => return .inl (v :: taken)
  | .closer got p => if got = b then return .inr taken.reverse else stray got p
  | .ended _ => fail (.endOfInput (.close b)) start

/-- The values up to the bracket that closes the list begun at `start`. -/
def items (d : Dialect σ) (nested : Nested σ) (b : Bracket) (start : Pos) :
    ReadM σ (List Value) :=
  ReadM.loop (d.itemsRound nested b start) []

/-- How to read what is nested, with room for so many levels. -/
def nested (d : Dialect σ) : Nat → Nested σ
  | 0 =>
    { datum := fail .tooDeep
      items := fun _ => fail .tooDeep }
  | room + 1 =>
    { datum := fun _ => within .mark (d.value (d.nested room))
      items := fun b start => within (.list b) (d.items (d.nested room) b start) }

/-- Reads with the room that the session has left. -/
def withRoom {α : Type} (d : Dialect σ) (x : Nested σ → ReadM σ α) : ReadM σ α := fun s =>
  x (d.nested s.room) s

def skipTrivia (d : Dialect σ) : ReadM σ Unit := d.withRoom d.trivia

def readToken (d : Dialect σ) : ReadM σ Token := d.withRoom d.token

/-- Reads the value after a mark that stands at `start`. -/
def readDatum (d : Dialect σ) (start : Pos) : ReadM σ Value := d.withRoom (·.datum start)

/-- Reads the items of a list whose opening bracket at `start` has been taken. -/
def readItems (d : Dialect σ) (b : Bracket) (start : Pos) : ReadM σ (List Value) :=
  d.withRoom (·.items b start)

/-- Reads one value, and leaves the rest of the input alone. -/
def read (d : Dialect σ) : ReadM σ Value := d.withRoom d.value

/-- A round of `readAll`: one value after those `taken` (in reverse), or the end. -/
def readAllRound (d : Dialect σ) (taken : List Value) :
    ReadM σ (List Value ⊕ List Value) := do
  match ← d.withRoom d.item with
  | .value v => return .inl (v :: taken)
  | .closer b p => stray b p
  | .ended _ => return .inr taken.reverse

/-- Reads all values up to the end of the input. -/
def readAll (d : Dialect σ) : ReadM σ (List Value) := ReadM.loop d.readAllRound []

/-- Reads all values of a text, in a session of its own. -/
def parse (d : Dialect σ) (memory : σ) (text : String) : Except Failure (List Value) :=
  match d.readAll (.start (.ofString text) memory) with
  | .ok vs _ => .ok vs
  | .error e _ => .error e

/-- Only trivia are left. -/
def atEnd (d : Dialect σ) : ReadM σ Bool := do
  d.skipTrivia
  Cursor.atEnd

def value? (d : Dialect σ) : ReadM σ (Option Value) := do
  match ← d.withRoom d.item with
  | .value v => return some v
  | .closer b p => stray b p
  | .ended _ => return none

/-- Reads the next value, if there is one. After a failure there is none. -/
def next? (d : Dialect σ) : ReadM σ (Option Value) := fun s =>
  if s.failed then .ok none s
  else
    match d.value? s with
    | .ok v s => .ok v s
    | .error e s => .error e { s with failed := true }

/-- A round of `stream`: one value after those `taken` (in reverse), or the end or a failure. -/
def streamRound (d : Dialect σ) (taken : List Value) :
    ReadM σ (List Value ⊕ List Value × Option Failure) := fun s =>
  match d.next? s with
  | .ok (some v) s => .ok (.inl (v :: taken)) s
  | .ok none s => .ok (.inr (taken.reverse, none)) s
  | .error e s => .ok (.inr (taken.reverse, some e)) s

/-- Reads value by value to the end or to a failure. -/
def stream (d : Dialect σ) : ReadM σ (List Value × Option Failure) := ReadM.loop d.streamRound []

end SExpr.Dialect
