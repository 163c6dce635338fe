import SExpr.Loop
import SExpr.Source

/-!
# Cursors

A cursor looks one character ahead of what has been read, and takes back characters that were read
too far. It asks its source for a character only when none is pending.
-/

namespace SExpr

/-- A place in the input. -/
structure Cursor where
  /-- Characters to deliver before the source is asked, the next one first. -/
  pending : List (Char × Pos) := []
  source : Source
  /-- The place after the last character taken. -/
  nextPos : Pos := .start

/-- Actions on a cursor, which keep the cursor when they fail. -/
abbrev CursorM := EStateM Failure Cursor

namespace Cursor

/-- The place of the next character, or of the end. -/
def pos (c : Cursor) : Pos :=
  match c.pending with
  | (_, p) :: _ => p
  | [] => c.nextPos

/-- The characters not yet taken, each with its place. -/
def located (c : Cursor) : List (Char × Pos) := c.pending ++ c.source.located

/-- The characters not yet taken. -/
def unread (c : Cursor) : List Char := c.pending.map Prod.fst ++ c.source.rest

/-- Each character not yet taken has its place. -/
theorem length_located (c : Cursor) : c.located.length = c.unread.length := by
  simp only [located, unread, Source.rest, List.length_append, List.length_map]

/-- The place of the next character, or of the end. -/
def here : CursorM Pos := fun c => .ok c.pos c

/-- Makes a character pending, unless one is or the input is at its end. A failure of the source
is reported at the place after the last character taken. -/
def fill : CursorM Unit := fun c =>
  match c.pending with
  | _ :: _ => .ok () c
  | [] =>
    match c.source.pull with
    | (.error cause, source) => .error ⟨cause, c.nextPos⟩ { c with source }
    | (.ok next, source) => .ok () { c with pending := next.toList, source }

/-- The next character, if there is one. It is not taken. -/
def peek : CursorM (Option Char) := do
  fill
  return (← get).pending.head?.map Prod.fst

def take? : CursorM (Option Char) := do
  fill
  let c ← get
  match c.pending with
  | [] => return none
  | (ch, p) :: pending =>
    set { c with pending, nextPos := p.advance ch }
    return some ch

/-- Takes the next character. That there is none is a failure, and `awaited` tells what was being
read. -/
def take (awaited : Awaited) : CursorM Char := do
  let p ← here
  match ← take? with
  | some ch => return ch
  | none => throw ⟨.endOfInput awaited, p⟩

/-- The cursor with a character put back in front of it, one column to the left. -/
def putBack (ch : Char) (c : Cursor) : Cursor :=
  { c with pending := (ch, c.pos.back) :: c.pending }

/-- Puts back a text that was read from the current line, so that it is read again next. -/
def pushBack (text : List Char) : CursorM Unit := modify fun c => text.foldr putBack c

def atEnd : CursorM Bool := do
  return (← peek).isNone

/-- What a loop would answer if it went on without taking characters. -/
def stuck {β : Type} : CursorM β := fun c => .error ⟨.endOfInput .value, c.pos⟩ c

/-- Repeats a step that takes characters until it is done. -/
def loop {α β : Type} (step : α → CursorM (α ⊕ β)) (a : α) : CursorM β := fun c =>
  SExpr.loop step stuck c.located a c

/-- The allowance is what has not been taken yet. -/
theorem loop_def {α β : Type} (step : α → CursorM (α ⊕ β)) (a : α) (c : Cursor) :
    loop step a c = SExpr.loop step stuck c.unread a c :=
  congrArg (· a c) (loop_of_length_eq c.length_located)

/-- A loop whose rounds take characters is one round and the same loop again. -/
theorem loop_eq {α β : Type} {step : α → CursorM (α ⊕ β)}
    (takes : ∀ a c a' c', step a c = .ok (.inl a') c' → c'.unread.length < c.unread.length)
    (a : α) (c : Cursor) :
    loop step a c =
      match step a c with
      | .error e c' => .error e c'
      | .ok (.inr b) c' => .ok b c'
      | .ok (.inl a') c' => loop step a' c' := by
  simp only [loop_def]
  rw [loop_unroll (fun _ => True) (fun a s a' s' _ h => ⟨trivial, takes a s a' s' h⟩) a trivial]
  rcases step a c with ⟨_ | _, _⟩ | ⟨_, _⟩ <;> rfl

end Cursor

end SExpr
