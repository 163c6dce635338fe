import SExpr.Proofs.Depth
import SExpr.Proofs.Positions
import SExpr.Proofs.Surroundings

/-!
# Nesting

Each list and each datum after a mark is read with one more frame open, and the frame is closed
again whatever happens. The limit bounds how much is open at any time, and so it bounds how deep the
values are nested that are read.

* **`Request`**: all that a session can be asked for, by its user or by a dialect.
* **`Dialect.watched`**: a dialect that raises an alarm when too much is open. No reading can tell
  it from the dialect itself.
* **`Request.nesting_bounded`**: all of this together, with the depth of what is read.
-/

namespace SExpr

open ReadM

variable {σ α : Type}

/-! ## Requests -/

/-- What a session can be asked for. A dialect asks for what is nested in its tokens. -/
inductive Request where
  | read
  | readAll
  | next
  | atEnd
  | trivia
  | datum (start : Pos)
  | items (bracket : Bracket) (start : Pos)
  deriving DecidableEq, Repr

namespace Request

/-- Makes a request; the result are the values that are returned. -/
def values (d : Dialect σ) : Request → ReadM σ (List Value)
  | read => do return [← d.read]
  | readAll => d.readAll
  | next => do return (← d.next?).toList
  | atEnd => do
    let _ ← d.atEnd
    return []
  | trivia => do
    d.skipTrivia
    return []
  | datum start => do return [← d.readDatum start]
  | items b start => d.readItems b start

end Request

/-! ## Watching what is open -/

/-- Raises the alarm where more is open than the limit allows. -/
def ReadM.watch (alarm : Failure) (x : ReadM σ α) : ReadM σ α := fun s =>
  if s.limit < s.context.length then .error alarm s else x s

/-- The dialect, where what is open is watched. Whenever a frame has been opened, the next thing to
be read is what comes before a token; so no frame goes unnoticed. -/
def Dialect.watched (alarm : Failure) (d : Dialect σ) : Dialect σ :=
  { d with
    trivia := fun n => watch alarm (d.trivia n)
    token := fun n => watch alarm (d.token n) }

/-- What is watched does the same while no more is open than the limit allows. -/
theorem Alike.watch {out : Failure → Prop} {u₁ u₂ : Session σ} {x₁ x₂ : ReadM σ α} (alarm : Failure)
    (hle : u₁.context.length ≤ u₁.limit) (hx : Alike out u₁ u₂ x₁ x₂) :
    Alike out u₁ u₂ (ReadM.watch alarm x₁) x₂ := by
  intro s
  have hquiet : ReadM.watch alarm x₁ (u₁.moved s) = x₁ (u₁.moved s) := by
    apply if_neg
    show ¬ u₁.limit < u₁.context.length
    omega
  rw [hquiet]
  exact hx s

/-- Two actions that are alike in the same surroundings do the same there. -/
theorem Alike.eq {s : Session σ} {x₁ x₂ : ReadM σ α} (h : Alike (fun _ => False) s s x₁ x₂) :
    x₁ s = x₂ s := by
  rcases h s with ⟨e, s', -, hout⟩ | ⟨r, h₁, h₂⟩
  · exact hout.elim
  · exact h₁.trans h₂.symm

namespace Dialect

variable {d d₁ d₂ : Dialect σ} {out : Failure → Prop} {u u₁ u₂ s : Session σ}

theorem Uniform.watched_matches (hd : d.Uniform) (alarm : Failure)
    (hle : u.context.length ≤ u.limit) : Matches out u u (d.watched alarm) d where
  trivia hn := (hd.alike.trivia hn).watch alarm hle
  token hn := (hd.alike.token hn).watch alarm hle

/-- **What is nested** raises no alarm, if there is as much room as it is given. -/
theorem Uniform.watched_nested (hd : d.Uniform) (alarm : Failure) {room : Nat}
    (hroom : u.context.length + room ≤ u.limit) :
    Nested.Alike out u u ((d.watched alarm).nested room) (d.nested room) := by
  -- The induction is on the room; to open a frame takes one off it and adds one to what is open.
  induction room generalizing u with
  | zero => exact ⟨fun _ => .fail _ _, fun _ _ => .fail _ _⟩
  | succ room ih =>
    have hopened (frame : Frame) :
        (u.opened frame).context.length + room ≤ (u.opened frame).limit := by
      show u.context.length + 1 + room ≤ u.limit
      omega
    have hmatches (frame : Frame) :
        Matches out (u.opened frame) (u.opened frame) (d.watched alarm) d := by
      apply hd.watched_matches alarm
      have := hopened frame
      omega
    constructor
    · intro start
      exact .within ((hmatches .mark).value (ih (hopened .mark)) rfl)
    · intro b start
      exact .within ((hmatches (.list b)).items (ih (hopened (.list b))) rfl b start)

theorem next?_congr (h : d₁.value? s = d₂.value? s) : d₁.next? s = d₂.next? s := by
  unfold next?
  rw [h]

end Dialect

namespace Keeps

variable {x : ReadM σ α} {s u : Session σ}

theorem context_of_ok {a : α} (hx : Keeps x) (h : x s = .ok a u) : u.context = s.context := by
  rw [hx.eq_moved_of_ok h]
  rfl

theorem context_of_error {e : Failure} (hx : Keeps x) (h : x s = .error e u) :
    u.context = s.context := by
  rw [hx.eq_moved_of_error h]
  rfl

theorem room_of_ok {a : α} (hx : Keeps x) (h : x s = .ok a u) : u.room = s.room := by
  rw [hx.eq_moved_of_ok h]
  rfl

end Keeps

namespace Request

variable {d d₁ d₂ : Dialect σ} {out : Failure → Prop} {u₁ u₂ s : Session σ}

/-- Requests are answered alike by dialects that match, in any surroundings. Only reading value by
value changes these. -/
theorem values_alike (hd : Dialect.Matches out u₁ u₂ d₁ d₂)
    (hn : Nested.Alike out u₁ u₂ (d₁.nested u₁.room) (d₂.nested u₂.room))
    (hcontext : u₁.context = u₂.context) {r : Request} (hr : r ≠ .next) :
    Alike out u₁ u₂ (r.values d₁) (r.values d₂) := by
  have htrivia : Alike out u₁ u₂ d₁.skipTrivia d₂.skipTrivia :=
    Dialect.Matches.withRoom (hd.trivia hn)
  cases r with
  | read => exact .bind (Dialect.Matches.withRoom (hd.value hn hcontext)) fun _ => .pure _
  | readAll => exact hd.readAll hn hcontext
  | next => exact absurd rfl hr
  | atEnd => exact .bind (.bind htrivia fun _ => .onCursor _) fun _ => .pure _
  | trivia => exact .bind htrivia fun _ => .pure _
  | datum start => exact .bind (Dialect.Matches.withRoom (hn.datum start)) fun _ => .pure _
  | items b start =>
    have hitems : Alike out u₁ u₂ (d₁.readItems b start) (d₂.readItems b start) :=
      fun s => hn.items b start s
    exact hitems

theorem values_next (d : Dialect σ) (s : Session σ) :
    values d .next s = match d.next? s with
      | .ok v u => .ok v.toList u
      | .error e u => .error e u := by
  unfold values
  cases h : d.next? s with
  | ok v u => exact bind_of_ok h
  | error e u => exact bind_of_error h

theorem values_keeps (hd : d.Uniform) {r : Request} (hr : r ≠ .next) : Keeps (r.values d) :=
  hd.keeps_of_alike fun _ hn => values_alike hd.alike hn rfl hr

/-- A request leaves the surroundings as they were, but for the failure that reading value by value
keeps in mind. -/
theorem exists_leaves_eq (hd : d.Uniform) (r : Request) (s : Session σ) :
    ∃ cursor memory failed, Call.leaves (r.values d) s = { s with cursor, memory, failed } := by
  unfold Call.leaves
  -- Only the next value touches what is kept in mind of a failure.
  by_cases hr : r = .next
  · subst hr
    rw [values_next]
    rcases Bool.eq_false_or_eq_true s.failed with hfailed | hfailed
    · rw [Dialect.Tracked.next?_of_failed hfailed]
      exact ⟨s.cursor, s.memory, s.failed, rfl⟩
    · cases hvalue : d.value? s with
      | ok v u =>
        have hmoved := hd.value?_keeps.eq_moved_of_ok hvalue
        rw [Dialect.Tracked.next?_of_ok hfailed hvalue]
        exact ⟨u.cursor, u.memory, s.failed, hmoved⟩
      | error e u =>
        have hmoved := hd.value?_keeps.eq_moved_of_error hvalue
        rw [Dialect.Tracked.next?_of_error hfailed hvalue]
        exact ⟨u.cursor, u.memory, true, congrArg (fun v => { v with failed := true }) hmoved⟩
  · cases hres : r.values d s with
    | ok vs u =>
      have hmoved := (values_keeps hd hr).eq_moved_of_ok hres
      exact ⟨u.cursor, u.memory, s.failed, hmoved⟩
    | error e u =>
      have hmoved := (values_keeps hd hr).eq_moved_of_error hres
      exact ⟨u.cursor, u.memory, s.failed, hmoved⟩

/-- **What is open is closed again**, after a success as after a failure. -/
theorem context_leaves (hd : d.Uniform) (r : Request) (s : Session σ) :
    (Call.leaves (r.values d) s).context = s.context := by
  obtain ⟨cursor, memory, failed, h⟩ := exists_leaves_eq hd r s
  rw [h]

/-- No request changes the limit. -/
theorem limit_leaves (hd : d.Uniform) (r : Request) (s : Session σ) :
    (Call.leaves (r.values d) s).limit = s.limit := by
  obtain ⟨cursor, memory, failed, h⟩ := exists_leaves_eq hd r s
  rw [h]

/-- **No alarm is raised** where no more is open than the limit allows. -/
theorem values_watched (hd : d.Uniform) (hs : s.context.length ≤ s.limit) (r : Request)
    (alarm : Failure) : r.values (d.watched alarm) s = r.values d s := by
  have hroom : s.context.length + s.room ≤ s.limit := by
    show s.context.length + (s.limit - s.context.length) ≤ s.limit
    omega
  have hmatches : Dialect.Matches (fun _ => False) s s (d.watched alarm) d :=
    hd.watched_matches alarm hs
  have hnested : Nested.Alike (fun _ => False) s s ((d.watched alarm).nested s.room)
      (d.nested s.room) := hd.watched_nested alarm hroom
  by_cases hr : r = .next
  · subst hr
    rw [values_next, values_next, Dialect.next?_congr (hmatches.value? hnested rfl).eq]
  · exact (values_alike hmatches hnested rfl hr).eq

end Request

/-! ## Requests together -/

namespace Request

variable {d : Dialect σ} {inv : σ → Prop} {s : Session σ}

/-- All values of a document go no deeper than the room there is at its beginning. -/
theorem ensures_readAll (hd : d.Gives inv) (huniform : d.Uniform) (hs : inv s.memory) :
    Ensures d.readAll s fun vs u => inv u.memory ∧ ∀ v ∈ vs, v.depth ≤ s.room := by
  refine Ensures.loop
    (fun taken u => inv u.memory ∧ u.room = s.room ∧ ∀ v ∈ taken, v.depth ≤ s.room)
    (fun _ _ _ => stuck_ne_ok) (fun taken u hu => ?_) ⟨hs, rfl, by simp⟩
  obtain ⟨hu, hroom, htaken⟩ := hu
  intro r u' hround
  -- Between the values of a document there is as much room as at its beginning.
  have hroom' := (huniform.readAllRound_keeps taken).room_of_ok hround
  rw [Dialect.readAllRound_eq, hroom] at hround
  have hvalues := hd.collect (hd.nested s.room) htaken u hu r u' hround
  cases r with
  | inl taken' => exact ⟨hvalues.1, hroom'.trans hroom, hvalues.2⟩
  | inr vs => exact hvalues

/-- The next value goes no deeper than the session has room. -/
theorem ensures_next (hd : d.Gives inv) (hs : inv s.memory) :
    Ensures (values d .next) s fun vs u => inv u.memory ∧ ∀ v ∈ vs, v.depth ≤ s.room := by
  intro vs u h
  rw [values_next] at h
  rcases Bool.eq_false_or_eq_true s.failed with hfailed | hfailed
  · rw [Dialect.Tracked.next?_of_failed hfailed] at h
    cases h
    exact ⟨hs, by simp⟩
  · cases hvalue : d.value? s with
    | error e u' =>
      rw [Dialect.Tracked.next?_of_error hfailed hvalue] at h
      cases h
    | ok r u' =>
      rw [Dialect.Tracked.next?_of_ok hfailed hvalue] at h
      cases h
      have hvalues := hd.optional (hd.nested s.room) s hs r u hvalue
      refine ⟨hvalues.1, fun v hv => hvalues.2 v ?_⟩
      exact Option.mem_toList.mp hv

/-- **Values** go no deeper than the session has room. -/
theorem ensures_values (hd : d.Gives inv) (huniform : d.Uniform) (hs : inv s.memory) (r : Request) :
    Ensures (r.values d) s fun vs u => inv u.memory ∧ ∀ v ∈ vs, v.depth ≤ s.room := by
  have hn := hd.nested s.room
  have hvalue : Ensures d.read s fun v u => inv u.memory ∧ v.depth ≤ s.room := hd.value hn s hs
  have htrivia : Ensures d.skipTrivia s fun _ u => inv u.memory ∧ True := hd.trivia hn s hs
  cases r with
  | read =>
    refine hvalue.bind fun v u hu => .pure ⟨hu.1, ?_⟩
    simpa using hu.2
  | readAll => exact ensures_readAll hd huniform hs
  | next => exact ensures_next hd hs
  | atEnd =>
    refine Ensures.bind (htrivia.bind fun _ u hu => ?_) fun _ u hu => .pure ⟨hu, by simp⟩
    have hatEnd : Gives inv (Cursor.atEnd : ReadM σ Bool) fun _ => True :=
      .onCursor fun _ _ _ _ => trivial
    exact (hatEnd u hu.1).mono fun _ _ h => h.1
  | trivia => exact htrivia.bind fun _ u hu => .pure ⟨hu.1, by simp⟩
  | datum start =>
    have hdatum : Ensures (d.readDatum start) s fun v u => inv u.memory ∧ v.depth < s.room :=
      hn.datum start s hs
    refine hdatum.bind fun v u hu => .pure ⟨hu.1, ?_⟩
    simpa using hu.2.le
  | items b start =>
    have hitems : Ensures (d.readItems b start) s fun vs u =>
      inv u.memory ∧ Value.depthAll vs < s.room := hn.items b start s hs
    exact hitems.mono fun vs u hu => ⟨hu.1, Value.depthAll_le_iff.mp hu.2.le⟩

/-- **Nesting is bounded, and undone.** Whatever a session is asked for where no more is open than
its limit allows: in the end the same is open as before, be it a success or not; at no time is more
open than the limit allows, as an alarm that is raised then would change nothing; and the values
that are returned go no deeper than there was room for, as long as words and names stand for values
without parts. -/
theorem nesting_bounded (d : Dialect σ) (hd : d.Known) (s : Session σ)
    (hs : s.context.length ≤ s.limit) (r : Request) :
    (Call.leaves (r.values d) s).context = s.context ∧
      (∀ alarm, r.values (d.watched alarm) s = r.values d s) ∧
      ∀ inv, d.PlainWhile inv → inv s.memory → ∀ vs u, r.values d s = .ok vs u →
        inv u.memory ∧ ∀ v ∈ vs, v.depth ≤ s.limit - s.context.length := by
  refine ⟨context_leaves hd.uniform r s, values_watched hd.uniform hs r, ?_⟩
  intro inv hplain hmemory vs u h
  exact ensures_values hplain.gives hd.uniform hmemory r vs u h

/-- Within a list that is open already, a quote before a vector takes the two levels that are
left. -/
theorem nesting_bounded_commonLisp :
    ∃ (s u : Session Unit) (vs : List Value), s.context = [.list .round] ∧ s.limit = 3 ∧
      read.values (Dialect.commonLisp {}) s = .ok vs u ∧
      (Call.leaves (read.values (Dialect.commonLisp {})) s).context = [.list .round] ∧
      (∀ alarm, read.values ((Dialect.commonLisp {}).watched alarm) s
        = read.values (Dialect.commonLisp {}) s) ∧
      ∀ v ∈ vs, v.depth ≤ 3 - 1 := by
  have hok : (match read.values (Dialect.commonLisp {})
        { Session.fresh "'#(a b)".toList none () 3 with context := [.list .round] } with
      | .ok _ _ => true
      | .error _ _ => false) = true := by decide +kernel
  obtain ⟨hcontext, hquiet, hdepth⟩ := nesting_bounded (Dialect.commonLisp {}) (.commonLisp {})
    { Session.fresh "'#(a b)".toList none () 3 with context := [.list .round] } (by decide) .read
  cases h : read.values (Dialect.commonLisp {})
      { Session.fresh "'#(a b)".toList none () 3 with context := [.list .round] } with
  | error e u =>
    rw [h] at hok
    cases hok
  | ok vs u =>
    have hdepth := hdepth _ (.commonLisp {} rfl rfl) trivial vs u h
    exact ⟨_, u, vs, rfl, rfl, h, hcontext, hquiet, hdepth.2⟩

/-- With a list in the vector there would be one level more. -/
example : (match read.values (Dialect.commonLisp {})
      { Session.fresh "'#(a (b))".toList none () 3 with context := [.list .round] } with
    | .ok _ _ => none
    | .error e _ => some e) = some ⟨.tooDeep, ⟨0, 5⟩⟩ := by decide +kernel

/-- An alarm can be told from an answer: it is raised where more is open than the limit allows. -/
example : (match read.values ((Dialect.commonLisp {}).watched ⟨.tooDeep, ⟨7, 7⟩⟩)
      { Session.fresh "a".toList none () 0 with context := [.list .round] } with
    | .ok _ _ => none
    | .error e _ => some e) = some ⟨.tooDeep, ⟨7, 7⟩⟩ := by decide +kernel

end Request

end SExpr
