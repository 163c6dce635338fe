import SExpr.Proofs.Course
import SExpr.Proofs.Positions
import SExpr.Proofs.Skipping

/-!
# Ways to ask for values

A session can be asked for one value, for all of them, or for one after the other. All of these
follow the same course, so they give the same values and end in the same way. Between them a session
can be asked whether it is at its end. No later answer can tell, and no later place, except for the
place of a session that has failed.

* **`Course.answers_read`**, **`Course.answers_next`**: the answers to repeated calls.
* **`Known.unnoticed`**: to have skipped what comes before a token makes no difference.
* **`Call.answers_agree`**: all entry points together.
-/

namespace SExpr

open HasCursor

variable {σ : Type}

/-! ## Answers -/

/-- What a call can answer. -/
inductive Answer where
  | value (v : Value)
  | values (vs : List Value)
  | ended
  | flag (b : Bool)
  | failed (e : Failure)

namespace Answer

def ofResult {α : Type} (f : α → Answer) : EStateM.Result Failure (Session σ) α → Answer
  | .ok a _ => f a
  | .error e _ => failed e

def ofOption : Option Value → Answer
  | some v => value v
  | none => ended

/-- The answer after the last value: the failure that has stopped the reading, or else the given
one. -/
def ofStop (answer : Answer) : Option Failure → Answer
  | some e => failed e
  | none => answer

end Answer

namespace Call

def answer (d : Dialect σ) (s : Session σ) : Call → Answer
  | read => .ofResult .value (d.read s)
  | readAll => .ofResult .values (d.readAll s)
  | next => .ofResult .ofOption (d.next? s)
  | atEnd => .ofResult .flag (d.atEnd s)

/-- The answers to calls that are made one after the other. -/
def answers (d : Dialect σ) (s : Session σ) : List Call → List Answer
  | [] => []
  | call :: calls => call.answer d s :: answers d (call.run d s) calls

/-- The session after the last of the calls. -/
def after (d : Dialect σ) (s : Session σ) : List Call → Session σ
  | [] => s
  | call :: calls => after d (call.run d s) calls

/-- What can be told later of `s` having been asked if it is at its end, which has left `u` and was
answered by `b`. Answers and memory are the same. So is the whole session from the next call on, or,
where reading value by value has failed, from the first call on that is not for the next value: for
that a failed session reads nothing, so it stays at the place that it was left at. -/
structure Unnoticed (d : Dialect σ) (s u : Session σ) (b : Bool) : Prop where
  answers : ∀ calls, answers d u calls = answers d s calls
  memory : ∀ calls, (after d u calls).memory = (after d s calls).memory
  sessions : s.failed = false → ∀ calls, sessions d u calls = sessions d s calls
  after : ∀ calls, (∃ call ∈ calls, call ≠ .next) → after d u calls = after d s calls
  stays : s.failed = true → d.next? s = .ok none s ∧ d.next? u = .ok none u
  ended : s.failed = false → (b = true ↔ ∃ u', d.next? s = .ok none u')

theorem leaves_of_ok {α : Type} {x : ReadM σ α} {s u : Session σ} {a : α} (h : x s = .ok a u) :
    leaves x s = u := by
  unfold leaves
  rw [h]

theorem leaves_of_error {α : Type} {x : ReadM σ α} {s u : Session σ} {e : Failure}
    (h : x s = .error e u) : leaves x s = u := by
  unfold leaves
  rw [h]

end Call

namespace Session

/-- The session knows its place. -/
def Placed (q : Char → Bool) (s : Session σ) : Prop := ∃ p cs fault, s.cursor.At q p cs fault

/-- Whatever it does, an action that reads the same text alike leaves a session that knows its
place. -/
theorem Placed.leaves {α : Type} {q : Char → Bool} {s : Session σ} {x : ReadM σ α}
    (hs : s.Placed q)
    (hx : ∀ fault p cs, ∃ need post, Tracks q { cut := fault } p [] cs x x need post) :
    (Call.leaves x s).Placed q := by
  obtain ⟨p, cs, fault, hs⟩ := hs
  obtain ⟨c, hc⟩ := Cursor.exists_at q p cs none
  obtain ⟨need, post, hx⟩ := hx fault p cs
  have hx : Outcome q { cut := fault } p cs need post (x s) (x { s with cursor := c }) := by
    refine hx s c hs ?_
    rw [List.append_nil]
    exact hc
  unfold Call.leaves
  cases hres : x s with
  | ok a s' =>
    rw [hres] at hx
    obtain ⟨front, rest, -, hat, -⟩ := hx
    exact ⟨_, rest, fault, hat⟩
  | error e s' =>
    rw [hres] at hx
    obtain ⟨front, rest, cut, -, hat, -⟩ := hx
    exact ⟨_, rest, cut, hat⟩

end Session

namespace Dialect

variable {d : Dialect σ} {s t u : Session σ} {p : Pos} {cs : List Char} {fault : Option Fault}
  {v : Value} {vs : List Value} {stop : Option Failure} {e : Failure}

/-- A session stays within its text, whatever it is asked for. -/
theorem Tracked.placed_run (hd : d.Tracked) (hs : s.Placed d.isAtomChar) (call : Call) :
    (call.run d s).Placed d.isAtomChar := by
  cases call with
  | read => exact hs.leaves fun _ _ _ => ⟨_, _, hd.read⟩
  | readAll => exact hs.leaves fun _ _ _ => ⟨_, _, hd.readAll⟩
  | next => exact hs.leaves fun _ _ _ => ⟨_, _, hd.next?⟩
  | atEnd => exact hs.leaves fun _ _ _ => ⟨_, _, hd.atEnd⟩

/-- So it does however often it is asked. -/
theorem Tracked.placed_after (hd : d.Tracked) (hs : s.Placed d.isAtomChar) (calls : List Call) :
    (Call.after d s calls).Placed d.isAtomChar := by
  induction calls generalizing s with
  | nil => exact hs
  | cons call calls ih => exact ih (hd.placed_run hs call)

/-! ## The end -/

/-- An item that is the end has taken only what comes before a token. -/
theorem Known.ensures_item_ended (hd : d.Known) (hs : s.cursor.At d.isAtomChar p cs fault) :
    Ensures (d.withRoom d.item) s fun item u => ∀ place, item = .ended place →
      d.Skipped s u ∧ u.cursor.Shows none ∧ place = u.cursor.pos := by
  have hn := hd.tracked.nested { cut := fault } s.room
  refine Ensures.bind (P := fun _ s₁ => d.skipTrivia s = .ok () s₁) (fun _ _ h => h)
    fun _ s₁ htrivia => ?_
  obtain ⟨front, mid, -, hs₁, -⟩ := (hd.tracked.trivia hn p cs).of_ok hs htrivia
  -- Before the token: what has been skipped need not be skipped again.
  have hskipped := hd.skipped hs htrivia
  obtain ⟨r, hshows⟩ := hskipped.shows
  refine Ensures.bind (P := fun place s₂ => place = s₁.cursor.pos ∧ s₂ = s₁) (fun place s₂ h => ?_)
    fun place s₂ hplace => ?_
  · cases h
    exact ⟨rfl, rfl⟩
  obtain ⟨rfl, rfl⟩ := hplace
  -- The token: it is the end only if nothing was there, and then the source has told that it is
  -- over.
  refine Ensures.bind (P := fun token s₃ => d.token (d.nested s.room) s₂ = .ok token s₃)
    (fun _ _ h => h) fun token s₃ htoken => ?_
  cases token with
  | ended =>
    refine .pure fun place hplace => ?_
    cases hplace
    obtain ⟨_, rest, -, -, htaken⟩ := (hd.tracked.token hn _ mid).of_ok hs₁ htoken
    obtain ⟨rfl, -⟩ := htaken.eq_nil
    have hr : r = none := by
      rw [hshows.eq_head?, show s₂.cursor.unread = [] from hs₁.unread]
      rfl
    subst hr
    obtain rfl := hshows.fault_eq_none hs₁
    cases (hd.token_at_nil hs₁).symm.trans htoken
    exact ⟨hskipped, hshows, rfl⟩
  | opener b =>
    exact Ensures.bind (P := fun _ _ => True) (fun _ _ _ => trivial) fun _ _ _ => .pure nofun
  | closer b => exact .pure nofun
  | value v => exact .pure nofun

/-- Where there is no next value, the item is the end. -/
theorem item_of_value?_none (h : d.value? s = .ok none u) :
    ∃ place, d.withRoom d.item s = .ok (.ended place) u := by
  have h : (d.withRoom d.item >>= Tracked.optional) s = .ok none u := h
  cases hitem : d.withRoom d.item s with
  | error e u' =>
    rw [bind_of_error hitem] at h
    cases h
  | ok item u' =>
    rw [bind_of_ok hitem] at h
    cases item with
    | value v => cases h
    | closer b place => cases h
    | ended place =>
      cases h
      exact ⟨place, rfl⟩

/-- Where there is no next value, all has been skipped and the end has been seen. -/
theorem Known.skipped_of_value?_none (hd : d.Known) (hs : s.Placed d.isAtomChar)
    (h : d.value? s = .ok none u) : d.Skipped s u ∧ u.cursor.Shows none := by
  obtain ⟨p, cs, fault, hs⟩ := hs
  obtain ⟨place, hitem⟩ := item_of_value?_none h
  have hended := hd.ensures_item_ended hs _ u hitem place rfl
  exact ⟨hended.1, hended.2.1⟩

/-- Where nothing is left to skip and the end has been seen, there is no value. -/
theorem Known.value?_of_shows_none (hd : d.Known) (hu : u.Placed d.isAtomChar)
    (hagain : d.skipTrivia u = .ok () u) (hshows : u.cursor.Shows none) :
    d.value? u = .ok none u := by
  obtain ⟨p, cs, fault, hu⟩ := hu
  have hcs : cs = [] := by
    have hhead := hshows.eq_head?
    rw [hu.unread] at hhead
    exact List.head?_eq_none_iff.mp hhead.symm
  subst hcs
  obtain rfl := hshows.fault_eq_none hu
  show (d.item (d.nested u.room) >>= Tracked.optional) u = _
  rw [item_bind, bind_of_ok (show d.trivia (d.nested u.room) u = .ok () u from hagain)]
  exact bind_of_ok (hd.token_at_nil hu)

/-! ## Repeated calls -/

/-- One value is read if there is a next one. -/
theorem read_of_some (h : d.value? s = .ok (some v) t) : d.read s = .ok v t := by
  have h : (d.item (d.nested s.room) >>= Tracked.optional) s = .ok (some v) t := h
  show d.value (d.nested s.room) s = _
  unfold value
  cases hitem : d.item (d.nested s.room) s with
  | error e u =>
    rw [bind_of_error hitem] at h
    cases h
  | ok item u =>
    rw [bind_of_ok hitem] at h ⊢
    cases item with
    | value v =>
      cases h
      rfl
    | closer b place => cases h
    | ended place => cases h

/-- One value is not read where the next one fails. -/
theorem read_of_error (h : d.value? s = .error e u) : d.read s = .error e u := by
  have h : (d.item (d.nested s.room) >>= Tracked.optional) s = .error e u := h
  show d.value (d.nested s.room) s = _
  unfold value
  cases hitem : d.item (d.nested s.room) s with
  | error e u =>
    rw [bind_of_error hitem] at h ⊢
    cases h
    rfl
  | ok item u =>
    rw [bind_of_ok hitem] at h ⊢
    cases item with
    | value v => cases h
    | closer b place =>
      cases h
      rfl
    | ended place => cases h

/-- Where there is no next value, to ask for one fails at the end. -/
theorem Known.read_of_none (hd : d.Known) (hs : s.Placed d.isAtomChar)
    (h : d.value? s = .ok none u) :
    d.read s = .error ⟨.endOfInput .value, u.cursor.pos⟩ u := by
  obtain ⟨p, cs, fault, hs⟩ := hs
  obtain ⟨place, hitem⟩ := item_of_value?_none h
  rw [(hd.ensures_item_ended hs _ u hitem place rfl).2.2] at hitem
  exact bind_of_ok hitem

/-- A session that has given a value stays within its text. -/
theorem Tracked.placed_of_value? (hd : d.Tracked) (hs : s.Placed d.isAtomChar)
    (h : d.value? s = .ok (some v) t) : t.Placed d.isAtomChar := by
  obtain ⟨p, cs, fault, hs⟩ := hs
  obtain ⟨p', rest, ht, -⟩ := hd.length_lt_of_value? hs h
  exact ⟨p', rest, fault, ht⟩

namespace Course

/-- **Reading one value again and again** gives the values of the course, and then tells why there
is none. -/
theorem answers_read (hd : d.Known) (h : d.Course s vs stop u) (hs : s.Placed d.isAtomChar) :
    Call.answers d s (List.replicate (vs.length + 1) .read) =
      vs.map .value ++ [.ofStop (.failed ⟨.endOfInput .value, u.cursor.pos⟩) stop] := by
  induction h with
  | ended h =>
    show [Answer.ofResult .value (d.read _)] = _
    rw [hd.read_of_none hs h]
    rfl
  | failed h =>
    show [Answer.ofResult .value (d.read _)] = _
    rw [read_of_error h]
    rfl
  | @more s t u v vs stop h _ ih =>
    have hread := read_of_some h
    have hrun : Call.run d .read s = t := Call.leaves_of_ok hread
    rw [List.length_cons, List.replicate_succ, Call.answers, hrun,
      ih (hd.tracked.placed_of_value? hs h), Call.answer, hread]
    rfl

/-- Once there is no next value, there never is. -/
theorem answers_next_of_none (h : d.next? s = .ok none s) (k : Nat) :
    Call.answers d s (List.replicate k .next) = List.replicate k .ended := by
  have hrun : Call.run d .next s = s := Call.leaves_of_ok h
  induction k with
  | zero => rfl
  | succ k ih =>
    rw [List.replicate_succ, Call.answers, hrun, ih, Call.answer, h]
    rfl

/-- **Reading the next value again and again** gives the values of the course, then the failure if
there is one, and nothing after that. -/
theorem answers_next (hd : d.Known) (h : d.Course s vs stop u) (hs : s.Placed d.isAtomChar)
    (hfailed : s.failed = false) (k : Nat) :
    Call.answers d s (List.replicate (vs.length + 1 + k) .next) =
      vs.map .value ++ .ofStop .ended stop :: List.replicate k .ended := by
  induction h with
  | @ended s u h =>
    have hnext := Tracked.next?_of_ok hfailed h
    have hrun : Call.run d .next s = u := Call.leaves_of_ok hnext
    -- What was skipped before the end is not skipped again.
    obtain ⟨hskipped, hshows⟩ := hd.skipped_of_value?_none hs h
    have hplaced : u.Placed d.isAtomChar := hrun ▸ hd.tracked.placed_run hs .next
    have hufailed : u.failed = false := by rw [hskipped.cursor]; exact hfailed
    have hagain := Tracked.next?_of_ok hufailed
      (hd.value?_of_shows_none hplaced hskipped.again hshows)
    rw [List.length_nil, Nat.zero_add, Nat.add_comm, List.replicate_succ, Call.answers, hrun,
      answers_next_of_none hagain, Call.answer, hnext]
    rfl
  | @failed s u e h =>
    have hnext := Tracked.next?_of_error hfailed h
    have hrun : Call.run d .next s = { u with failed := true } := Call.leaves_of_error hnext
    have hagain : d.next? { u with failed := true } = .ok none { u with failed := true } :=
      Tracked.next?_of_failed rfl
    rw [List.length_nil, Nat.zero_add, Nat.add_comm, List.replicate_succ, Call.answers, hrun,
      answers_next_of_none hagain, Call.answer, hnext]
    rfl
  | @more s t u v vs stop h _ ih =>
    have hnext := Tracked.next?_of_ok hfailed h
    have hrun : Call.run d .next s = t := Call.leaves_of_ok hnext
    have htfailed : t.failed = false := by
      rw [hd.uniform.value?_keeps.eq_moved_of_ok h]
      exact hfailed
    have hcount : (v :: vs).length + 1 + k = vs.length + 1 + k + 1 := by
      rw [List.length_cons]
      omega
    rw [hcount, List.replicate_succ, Call.answers, hrun,
      ih (hd.tracked.placed_of_value? hs h) htfailed, Call.answer, hnext]
    rfl

end Course

/-! ## Asking whether this is the end -/

namespace Skipped

variable {α : Type}

theorem room (h : d.Skipped s u) : u.room = s.room := by
  rw [h.cursor]
  rfl

theorem failed_eq (h : d.Skipped s u) : u.failed = s.failed := by
  rw [h.cursor]

theorem memory_eq (h : d.Skipped s u) : u.memory = s.memory := by
  rw [h.cursor]

/-- The next item is the same, and so is what is made of it. -/
theorem item_bind (h : d.Skipped s u) (f : Item → ReadM σ α) :
    (d.item (d.nested u.room) >>= f) u = (d.item (d.nested s.room) >>= f) s := by
  have hfirst : d.trivia (d.nested s.room) s = .ok () u := h.first
  have hagain : d.trivia (d.nested u.room) u = .ok () u := h.again
  rw [h.room] at hagain ⊢
  rw [Dialect.item_bind, bind_of_ok hfirst, bind_of_ok hagain]

theorem read_eq (h : d.Skipped s u) : d.read u = d.read s := h.item_bind _

theorem value?_eq (h : d.Skipped s u) : d.value? u = d.value? s := h.item_bind Tracked.optional

theorem next?_eq (h : d.Skipped s u) (hfailed : s.failed = false) : d.next? u = d.next? s := by
  have hu : u.failed = false := h.failed_eq.trans hfailed
  unfold next?
  rw [hfailed, hu, h.value?_eq]
  rfl

theorem atEnd_eq (h : d.Skipped s u) : d.atEnd u = d.atEnd s := by
  unfold atEnd
  rw [bind_of_ok h.first, bind_of_ok h.again]

/-- All values are the same behind what has been skipped. -/
theorem readAll_eq (hd : d.Tracked) (h : d.Skipped s u)
    (hs : s.cursor.At d.isAtomChar p cs fault) : d.readAll u = d.readAll s := by
  have htrivia : Tracks d.isAtomChar { cut := fault } p [] cs d.skipTrivia d.skipTrivia _ _ :=
    hd.withRoom fun n hn => hd.trivia hn p cs
  obtain ⟨front, rest, -, hu, -⟩ := htrivia.of_ok hs h.first
  exact loop_congr (τ := Session σ) hd.readAllRound (fun _ _ _ _ h => h.1) hu hs
    (h.item_bind (collect []))

/-- A call is answered the same, and leaves the same session. -/
theorem call_eq (hd : d.Tracked) (h : d.Skipped s u) (hs : s.Placed d.isAtomChar) {call : Call}
    (hcall : call = .next → s.failed = false) :
    call.answer d u = call.answer d s ∧ call.run d u = call.run d s := by
  obtain ⟨p, cs, fault, hs⟩ := hs
  cases call with
  | read => simp only [Call.answer, Call.run, Call.leaves, h.read_eq, and_self]
  | readAll => simp only [Call.answer, Call.run, Call.leaves, h.readAll_eq hd hs, and_self]
  | next => simp only [Call.answer, Call.run, Call.leaves, h.next?_eq (hcall rfl), and_self]
  | atEnd => simp only [Call.answer, Call.run, Call.leaves, h.atEnd_eq, and_self]

/-- Where reading value by value has failed, to go on with it changes nothing. Any other call makes
the two sessions the same. -/
theorem call_cases (hd : d.Tracked) (h : d.Skipped s u) (hs : s.Placed d.isAtomChar) (call : Call) :
    call.answer d u = call.answer d s ∧
      (call = .next ∧ call.run d u = u ∧ call.run d s = s ∨ call.run d u = call.run d s) := by
  by_cases hcall : call = .next ∧ s.failed = true
  · obtain ⟨rfl, hfailed⟩ := hcall
    have hs := Tracked.next?_of_failed (d := d) hfailed
    have hu := Tracked.next?_of_failed (d := d) (h.failed_eq.trans hfailed)
    refine ⟨?_, .inl ⟨rfl, Call.leaves_of_ok hu, Call.leaves_of_ok hs⟩⟩
    rw [Call.answer, Call.answer, hs, hu]
    rfl
  · have hcall : call = .next → s.failed = false := by
      intro hnext
      simpa [hnext] using hcall
    obtain ⟨hanswer, hrun⟩ := h.call_eq hd hs hcall
    exact ⟨hanswer, .inr hrun⟩

/-- Calls are answered the same, and leave the same memory. -/
theorem answers_eq (hd : d.Tracked) (h : d.Skipped s u) (hs : s.Placed d.isAtomChar)
    (calls : List Call) :
    Call.answers d u calls = Call.answers d s calls ∧
      (Call.after d u calls).memory = (Call.after d s calls).memory := by
  induction calls with
  | nil => exact ⟨rfl, h.memory_eq⟩
  | cons call calls ih =>
    obtain ⟨hanswer, ⟨-, hrunu, hruns⟩ | hrun⟩ := h.call_cases hd hs call
    · rw [Call.answers, Call.answers, Call.after, Call.after, hanswer, hrunu, hruns, ih.1]
      exact ⟨rfl, ih.2⟩
    · rw [Call.answers, Call.answers, Call.after, Call.after, hanswer, hrun]
      exact ⟨rfl, rfl⟩

/-- Unless the session has failed, it is the same after each call. -/
theorem sessions_eq (hd : d.Tracked) (h : d.Skipped s u) (hs : s.Placed d.isAtomChar)
    (hfailed : s.failed = false) (calls : List Call) :
    Call.sessions d u calls = Call.sessions d s calls := by
  cases calls with
  | nil => rfl
  | cons call calls => rw [Call.sessions, Call.sessions, (h.call_eq hd hs fun _ => hfailed).2]

/-- After any call that is not for the next value the two sessions are the same. -/
theorem after_eq (hd : d.Tracked) (h : d.Skipped s u) (hs : s.Placed d.isAtomChar)
    {calls : List Call} (hcalls : ∃ call ∈ calls, call ≠ .next) :
    Call.after d u calls = Call.after d s calls := by
  induction calls with
  | nil => simp at hcalls
  | cons call calls ih =>
    obtain ⟨-, ⟨rfl, hrunu, hruns⟩ | hrun⟩ := h.call_cases hd hs call
    · rw [Call.after, Call.after, hrunu, hruns]
      exact ih (by simpa using hcalls)
    · rw [Call.after, Call.after, hrun]

end Skipped

/-- What is answered at the end is told from the character that comes next. -/
theorem Known.skipped_of_atEnd (hd : d.Known) (hs : s.Placed d.isAtomChar) {b : Bool}
    (h : d.atEnd s = .ok b u) :
    d.Skipped s u ∧ ∃ r, u.cursor.Shows r ∧ b = r.isNone := by
  obtain ⟨p, cs, fault, hs⟩ := hs
  unfold atEnd at h
  cases htrivia : d.skipTrivia s with
  | error e u₁ =>
    rw [bind_of_error htrivia] at h
    cases h
  | ok a u₁ =>
    rw [bind_of_ok htrivia] at h
    have hskipped := hd.skipped hs htrivia
    obtain ⟨r, hshows⟩ := hskipped.shows
    have hend : (ReadM.onCursor Cursor.atEnd : ReadM σ Bool) u₁ = .ok r.isNone u₁ :=
      Tracks.lift_of_ok (τ := Session σ) (bind_of_ok hshows)
    cases hend.symm.trans h
    exact ⟨hskipped, r, hshows, rfl⟩

/-- **A session is at its end** exactly if it has no next value. -/
theorem Known.atEnd_iff (hd : d.Known) (hs : s.Placed d.isAtomChar) {b : Bool}
    (h : d.atEnd s = .ok b u) : b = true ↔ ∃ u', d.value? s = .ok none u' := by
  obtain ⟨hskipped, r, hshows, rfl⟩ := hd.skipped_of_atEnd hs h
  have hu : u.Placed d.isAtomChar := by
    have hrun : Call.run d .atEnd s = u := Call.leaves_of_ok h
    exact hrun ▸ hd.tracked.placed_run hs .atEnd
  constructor
  · intro hr
    obtain rfl := Option.isNone_iff_eq_none.mp hr
    exact ⟨u, hskipped.value?_eq ▸ hd.value?_of_shows_none hu hskipped.again hshows⟩
  · intro hnone
    obtain ⟨u', hnone⟩ := hnone
    obtain ⟨hskipped', hshows'⟩ := hd.skipped_of_value?_none hs hnone
    cases hskipped.first.symm.trans hskipped'.first
    cases hshows.symm.trans hshows'
    rfl

/-- **To ask for the end goes unnoticed**: it has only skipped what the next call would skip. -/
theorem Known.unnoticed (hd : d.Known) (hs : s.Placed d.isAtomChar) {b : Bool}
    (h : d.atEnd s = .ok b u) : Call.Unnoticed d s u b where
  answers calls := ((hd.skipped_of_atEnd hs h).1.answers_eq hd.tracked hs calls).1
  memory calls := ((hd.skipped_of_atEnd hs h).1.answers_eq hd.tracked hs calls).2
  sessions := (hd.skipped_of_atEnd hs h).1.sessions_eq hd.tracked hs
  after _ hcalls := (hd.skipped_of_atEnd hs h).1.after_eq hd.tracked hs hcalls
  stays hfailed := by
    have hufailed := (hd.skipped_of_atEnd hs h).1.failed_eq.trans hfailed
    exact ⟨Tracked.next?_of_failed hfailed, Tracked.next?_of_failed hufailed⟩
  ended hfailed := by
    rw [hd.atEnd_iff hs h]
    constructor
    · intro hnone
      obtain ⟨u', hnone⟩ := hnone
      exact ⟨u', Tracked.next?_of_ok hfailed hnone⟩
    · intro hnone
      obtain ⟨u', hnone⟩ := hnone
      cases hvalue : d.value? s with
      | error e u₁ => cases (Tracked.next?_of_error hfailed hvalue).symm.trans hnone
      | ok r u₁ =>
        cases (Tracked.next?_of_ok hfailed hvalue).symm.trans hnone
        exact ⟨u', rfl⟩

end Dialect

namespace Call

/-- **All entry points agree.** Over any text, whether or not its source breaks off, reading value
by value gives some values and then the end or a failure. Reading all values gives the same values
or the same failure. One more call than there are values, be it for the next value or for a value,
gives the same values and then tells of the end or the failure; there is no next value after that.
Between any calls the session may be asked whether it is at its end: an answer is right, and goes
unnoticed except for the place of a failed session, until it is asked for something else than the
next value. -/
theorem answers_agree (d : Dialect σ) (hd : d.Known) (text : List Char) (fault : Option Fault)
    (memory : σ) (limit : Nat) :
    ∃ vs stop u,
      d.stream (.fresh text fault memory limit) = .ok (vs, stop) { u with failed := stop.isSome } ∧
      d.readAll (.fresh text fault memory limit) = Dialect.unlessStopped vs u stop ∧
      (∀ k, answers d (.fresh text fault memory limit) (List.replicate (vs.length + 1 + k) .next) =
        vs.map .value ++ .ofStop .ended stop :: List.replicate k .ended) ∧
      answers d (.fresh text fault memory limit) (List.replicate (vs.length + 1) .read) =
        vs.map .value ++ [.ofStop (.failed ⟨.endOfInput .value, u.cursor.pos⟩) stop] ∧
      ∀ calls b u', d.atEnd (after d (.fresh text fault memory limit) calls) = .ok b u' →
        Unnoticed d (after d (.fresh text fault memory limit) calls) u' b := by
  have hfresh := Session.fresh_at d.isAtomChar text fault memory limit
  have hplaced : (Session.fresh text fault memory limit).Placed d.isAtomChar :=
    ⟨.start, text, fault, hfresh⟩
  obtain ⟨vs, stop, u, hcourse⟩ := Dialect.exists_course hd.tracked hfresh
  refine ⟨vs, stop, u, ?_, ?_, ?_, ?_, ?_⟩
  · exact hcourse.stream hd.tracked hd.uniform hfresh rfl
  · exact hcourse.readAll hd.tracked hfresh
  · exact hcourse.answers_next hd hplaced rfl
  · exact hcourse.answers_read hd hplaced
  · intro calls b u' h
    exact hd.unnoticed (hd.tracked.placed_after hplaced calls) h

/-- After the first value the session is asked whether it is at its end: it takes the comment with
its datum, and puts back the sharp sign of the second value. A bracket too many ends the reading. -/
theorem answers_agree_scheme :
    ∃ vs stop u,
      Dialect.scheme.stream (.fresh "a #;b #t )".toList none () 2)
        = .ok (vs, stop) { u with failed := stop.isSome } ∧
      Dialect.scheme.readAll (.fresh "a #;b #t )".toList none () 2)
        = Dialect.unlessStopped vs u stop ∧
      (∀ k, answers Dialect.scheme (.fresh "a #;b #t )".toList none () 2)
        (List.replicate (vs.length + 1 + k) .next)
          = vs.map .value ++ .ofStop .ended stop :: List.replicate k .ended) ∧
      answers Dialect.scheme (.fresh "a #;b #t )".toList none () 2)
        (List.replicate (vs.length + 1) .read)
          = vs.map .value ++ [.ofStop (.failed ⟨.endOfInput .value, u.cursor.pos⟩) stop] ∧
      ∃ b u', Dialect.scheme.atEnd
          (after Dialect.scheme (.fresh "a #;b #t )".toList none () 2) [.next]) = .ok b u' ∧
        Unnoticed Dialect.scheme
          (after Dialect.scheme (.fresh "a #;b #t )".toList none () 2) [.next]) u' b := by
  obtain ⟨vs, stop, u, hstream, hreadAll, hnext, hread, hatEnd⟩ :=
    answers_agree Dialect.scheme .scheme "a #;b #t )".toList none () 2
  refine ⟨vs, stop, u, hstream, hreadAll, hnext, hread, ?_⟩
  have hok : (match Dialect.scheme.atEnd
        (after Dialect.scheme (.fresh "a #;b #t )".toList none () 2) [.next]) with
      | .ok _ _ => true
      | .error _ _ => false) = true := by decide +kernel
  cases h : Dialect.scheme.atEnd
      (after Dialect.scheme (.fresh "a #;b #t )".toList none () 2) [.next]) with
  | error e u' =>
    rw [h] at hok
    cases hok
  | ok b u' => exact ⟨b, u', rfl, hatEnd [.next] b u' h⟩

/-- A bracket too many has ended the reading, and two blanks come after it. Being asked whether it
is at its end the session takes them, and being asked for a next value it stays there. -/
theorem not_pos_eq_after_atEnd :
    ¬ ∀ (text : List Char) (calls later : List Call) (b : Bool) (u : Session Unit),
      Dialect.basic.atEnd (after Dialect.basic (.fresh text none () 500) calls) = .ok b u →
        (after Dialect.basic u later).cursor.pos =
          (after Dialect.basic (after Dialect.basic (.fresh text none () 500) calls)
            later).cursor.pos := by
  intro h
  have hasked : (match Dialect.basic.atEnd
        (after Dialect.basic (.fresh ")  x".toList none () 500) [.next]) with
      | .ok _ u => (after Dialect.basic u [.next]).cursor.pos == ⟨0, 3⟩
      | .error _ _ => false) = true := by decide +kernel
  have hnot : (after Dialect.basic
      (after Dialect.basic (.fresh ")  x".toList none () 500) [.next]) [.next]).cursor.pos =
        ⟨0, 1⟩ := by decide +kernel
  cases hres : Dialect.basic.atEnd
      (after Dialect.basic (.fresh ")  x".toList none () 500) [.next]) with
  | error e u =>
    rw [hres] at hasked
    cases hasked
  | ok b u =>
    rw [hres] at hasked
    have hmoved : (after Dialect.basic u [.next]).cursor.pos = ⟨0, 3⟩ := beq_iff_eq.mp hasked
    have hplaces := h _ [.next] [.next] b u hres
    rw [hmoved, hnot] at hplaces
    cases hplaces

end Call

end SExpr
