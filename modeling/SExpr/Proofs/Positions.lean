import SExpr.Proofs.Tracks.Structure

/-!
# Where a session stands

However often a session over a text is asked for values, and whether or not it answers, it stands
before a rest of the text and knows its place. Nothing is lost, and nothing is read twice: from one
call to the next it can only go on.
-/

namespace SExpr

/-- What a session can be asked for. -/
inductive Call where
  | read
  | readAll
  | next
  | atEnd
  deriving DecidableEq, Repr

namespace Call

variable {σ : Type}

/-- The session that an action leaves, be it a success or not. -/
def leaves {α : Type} (x : ReadM σ α) (s : Session σ) : Session σ :=
  match x s with
  | .ok _ s' => s'
  | .error _ s' => s'

/-- The session after a call. -/
def run (d : Dialect σ) : Call → Session σ → Session σ
  | read => leaves d.read
  | readAll => leaves d.readAll
  | next => leaves d.next?
  | atEnd => leaves d.atEnd

/-- The sessions after each of the calls. -/
def sessions (d : Dialect σ) (s : Session σ) : List Call → List (Session σ)
  | [] => []
  | call :: calls => call.run d s :: sessions d (call.run d s) calls

end Call

/-- The session stands before what is left of the text after its first `k` characters. -/
structure Session.StandsAt {σ : Type} (text : List Char) (k : Nat) (s : Session σ) : Prop where
  le : k ≤ text.length
  unread : s.cursor.unread = text.drop k
  pos : s.cursor.pos = Pos.start.advanceAll (text.take k)

namespace Call

variable {σ α : Type} {q : Char → Bool} {p : Pos} {cs text : List Char} {s : Session σ} {k : Nat}

/-- An action that reads the same text alike leaves a session that stands before a rest of it. -/
theorem leaves_at {x : ReadM σ α} {need post : α → List Char → Prop}
    (hx : Tracks q {} p [] cs x x need post) (hs : s.cursor.At q p cs none) :
    ∃ front rest, cs = front ++ rest ∧
      (leaves x s).cursor.At q (p.advanceAll front) rest none := by
  have hsame : Twin.Same {} := ⟨rfl, rfl, rfl⟩
  have hx : Outcome q {} p cs need post (x s) (x s) := by
    refine hx s s.cursor hs ?_
    rw [List.append_nil]
    exact hs
  unfold leaves
  cases hres : x s with
  | ok a s' =>
    rw [hres] at hx
    obtain ⟨front, rest, hcs, hat, -, -⟩ := hx
    exact ⟨front, rest, hcs, hat⟩
  | error e s' =>
    rw [hres] at hx
    obtain ⟨front, rest, cut, hcs, -, hsecond⟩ := hx
    obtain ⟨c, hc, hat⟩ := hsecond hsame
    have hcursor : s'.cursor = c := congrArg Session.cursor (EStateM.Result.error.inj hc).2
    exact ⟨front, rest, hcs, by rw [hcursor]; exact hat⟩

/-- After a call, the session is further on in what was left of the text. -/
theorem run_at {d : Dialect σ} (hd : d.Tracked) (call : Call)
    (hs : s.cursor.At d.isAtomChar p cs none) :
    ∃ front rest, cs = front ++ rest ∧
      (call.run d s).cursor.At d.isAtomChar (p.advanceAll front) rest none := by
  cases call with
  | read => exact leaves_at hd.read hs
  | readAll => exact leaves_at hd.readAll hs
  | next => exact leaves_at hd.next? hs
  | atEnd => exact leaves_at hd.atEnd hs

/-- A session with nothing pending stands behind the part of the text it has taken. -/
theorem standsAt_of_at {front : List Char}
    (hs : s.cursor.At q (Pos.start.advanceAll front) cs none) :
    s.StandsAt (front ++ cs) front.length where
  le := by
    rw [List.length_append]
    omega
  unread := by rw [hs.unread, List.drop_left]
  pos := by rw [hs.pos, List.take_left]

/-- After each call the session stands before a rest of the text, no shorter than that after the
next call. -/
theorem sessions_at {d : Dialect σ} (hd : d.Tracked) (calls : List Call) (front : List Char)
    (hs : s.cursor.At d.isAtomChar (Pos.start.advanceAll front) cs none) :
    ∃ ks, (∀ k ∈ ks, front.length ≤ k) ∧ ks.Pairwise (· ≤ ·) ∧
      List.Forall₂ (Session.StandsAt (front ++ cs)) ks (sessions d s calls) := by
  induction calls generalizing s front cs with
  | nil => exact ⟨[], by simp, .nil, .nil⟩
  | cons call calls ih =>
    obtain ⟨more, rest, rfl, hat⟩ := run_at hd call hs
    rw [← Pos.advanceAll_append] at hat
    obtain ⟨ks, hle, hsorted, hstands⟩ := ih (front ++ more) hat
    have hfirst := standsAt_of_at hat
    rw [List.append_assoc] at hstands hfirst
    refine ⟨(front ++ more).length :: ks, ?_, .cons hle hsorted, .cons hfirst hstands⟩
    intro k hk
    have hfront : front.length ≤ (front ++ more).length := by
      rw [List.length_append]
      omega
    rcases List.mem_cons.mp hk with rfl | hk
    · exact hfront
    · exact hfront.trans (hle k hk)

/-- **No character is lost or read twice, and places are right.** Whatever a session over a text is
asked for, after each call it stands before what is left of the text after some number of
characters, which never goes down. -/
theorem exists_offsets (d : Dialect σ) (hd : d.Known) (text : List Char) (memory : σ) (limit : Nat)
    (calls : List Call) :
    ∃ ks : List Nat, ks.Pairwise (· ≤ ·) ∧
      List.Forall₂ (Session.StandsAt text) ks
        (sessions d (.fresh text none memory limit) calls) := by
  have hfresh := Session.fresh_at d.isAtomChar text none memory limit
  obtain ⟨ks, -, hsorted, hstands⟩ := sessions_at hd.tracked calls [] hfresh
  exact ⟨ks, hsorted, hstands⟩

/-- The rest of a character's literal is put back, a datum that is commented out is missing, and
the list is not closed. -/
theorem exists_offsets_scheme :
    ∃ ks : List Nat, ks.Pairwise (· ≤ ·) ∧
      List.Forall₂ (Session.StandsAt "#\\ab #;\n( (a".toList) ks
        (sessions Dialect.scheme (.fresh "#\\ab #;\n( (a".toList none () 2)
          [.read, .atEnd, .next, .readAll, .next, .read]) :=
  exists_offsets Dialect.scheme .scheme "#\\ab #;\n( (a".toList () 2
    [.read, .atEnd, .next, .readAll, .next, .read]

end Call

end SExpr
