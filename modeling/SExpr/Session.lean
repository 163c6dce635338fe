import SExpr.Lexeme

/-!
# Sessions

A reading session: the cursor, what is open around it, the limit on nesting, and what the dialect
remembers. A session goes on after a failure, with whatever had been read by then.
-/

namespace SExpr

/-- What is open around the cursor. -/
inductive Frame where
  | list (bracket : Bracket)
  /-- A mark such as a quote, whose datum is being read. -/
  | mark
  deriving DecidableEq, Repr

/-- The state of reading, where the dialect remembers a `σ`. -/
structure Session (σ : Type) where
  cursor : Cursor
  /-- What is open, the innermost first. -/
  context : List Frame := []
  /-- How much may be open at once. -/
  limit : Nat := 500
  /-- Reading value by value has failed, and is over. -/
  failed : Bool := false
  memory : σ

/-- Actions of a session, which keep the session when they fail. -/
abbrev ReadM (σ : Type) := EStateM Failure (Session σ)

namespace Session

variable {σ : Type}

def start (source : Source) (memory : σ) : Session σ := { cursor := { source }, memory }

/-- The bracket of the innermost open list. -/
def innermost? (s : Session σ) : Option Bracket :=
  s.context.findSome? fun
    | .list b => some b
    | .mark => none

/-- How many levels more may be opened. -/
def room (s : Session σ) : Nat := s.limit - s.context.length

end Session

namespace ReadM

variable {σ α β : Type}

/-- An action on the cursor, as one of the session. -/
def onCursor (x : CursorM α) : ReadM σ α := fun s =>
  match x s.cursor with
  | .ok a cursor => .ok a { s with cursor }
  | .error e cursor => .error e { s with cursor }

instance : MonadLift CursorM (ReadM σ) := ⟨onCursor⟩

def memory : ReadM σ σ := fun s => .ok s.memory s

/-- An action on what the dialect remembers. -/
def onMemory (f : σ → α × σ) : ReadM σ α := fun s =>
  let (a, memory) := f s.memory
  .ok a { s with memory }

def fail (cause : Cause) (p : Pos) : ReadM σ α := throw ⟨cause, p⟩

/-- Fails at a closing bracket that does not match what is open. -/
def stray (got : Bracket) (p : Pos) : ReadM σ α := fun s =>
  .error ⟨.strayCloser s.innermost? got, p⟩ s

/-- Runs an action with one more frame open, and closes it again in any case. -/
def within (frame : Frame) (x : ReadM σ α) : ReadM σ α := fun s =>
  match x { s with context := frame :: s.context } with
  | .ok a s => .ok a { s with context := s.context.tail }
  | .error e s => .error e { s with context := s.context.tail }

/-- Repeats a step that takes characters until it is done. -/
def loop (step : α → ReadM σ (α ⊕ β)) (a : α) : ReadM σ β := fun s =>
  SExpr.loop step (onCursor Cursor.stuck) s.cursor.located a s

/-- The allowance is what has not been taken yet. -/
theorem loop_def (step : α → ReadM σ (α ⊕ β)) (a : α) (s : Session σ) :
    loop step a s = SExpr.loop step (onCursor Cursor.stuck) s.cursor.unread a s :=
  congrArg (· a s) (loop_of_length_eq s.cursor.length_located)

/-- A loop whose rounds take characters is one round and the same loop again. -/
theorem loop_eq {step : α → ReadM σ (α ⊕ β)}
    (takes : ∀ a s a' s', step a s = .ok (.inl a') s' →
      s'.cursor.unread.length < s.cursor.unread.length) (a : α) (s : Session σ) :
    loop step a s =
      match step a s with
      | .error e s' => .error e s'
      | .ok (.inr b) s' => .ok b s'
      | .ok (.inl a') s' => loop step a' s' := by
  simp only [loop_def]
  rw [loop_unroll (fun _ => True) (fun a s a' s' _ h => ⟨trivial, takes a s a' s' h⟩) a trivial]
  rcases step a s with ⟨_ | _, _⟩ | ⟨_, _⟩ <;> rfl

end ReadM

end SExpr
