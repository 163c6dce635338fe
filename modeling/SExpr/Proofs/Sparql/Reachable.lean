import SExpr.Proofs.Sparql.Identity

/-!
# What a session remembers is plain

Nesting is bounded as long as the names that a session remembers stand for values without parts.
They do in every session that requests lead to, whether these succeed or fail.

* **`Dialect.Flat.linked_leaves`**: a request makes a run through tokens, as a call does.
* **`Request.Reachable`**: the sessions that requests lead to.
* **`Reachable.plain`**: what such a session remembers is plain.
* **`Reachable.depth_le`**: so the limit bounds the depth of all values that are ever read.
-/

namespace SExpr

variable {σ : Type}

/-! ## Requests as runs -/

namespace Dialect.Flat

variable {d : Dialect σ}

/-- Whatever is asked for, the run begins with what is remembered. What is open at its beginning is
what is open in the session, and the frame of the list or the datum that is asked for. -/
theorem traces_values (hd : d.Flat) (s : Session σ) (r : Request) :
    ∃ s₀ : Session σ, s₀.memory = s.memory ∧
      Traces s.context (d.Reached s₀ s₀.context []) (r.values d.traced) (r.values d)
        (fun _ => d.Stopped s₀) (d.Stopped s₀) := by
  cases r with
  | read => exact ⟨s, rfl, (hd.traces_read s).bind fun v => .pure fun m h => h.stopped⟩
  | readAll => exact ⟨s, rfl, (hd.traces_readAll s).mono (fun _ h => h) (fun vs m h => h.stopped)
      fun _ h => h⟩
  | next => exact ⟨s, rfl, (hd.traces_next? s).bind fun v => .pure fun m h => h.stopped⟩
  | atEnd => exact ⟨s, rfl, (hd.traces_atEnd s).bind fun b => .pure fun m h => h.stopped⟩
  | trivia => exact ⟨s, rfl, (hd.traces_skipTrivia s).bind fun _ => .pure fun m h => h.stopped⟩
  | datum start =>
    let s₀ : Session σ := { s with context := .mark :: s.context }
    have hdatum (room : Nat) : Traces s.context (d.Reached s₀ s₀.context [])
        ((d.traced.nested room).datum start) ((d.nested room).datum start)
        (fun _ => d.Stopped s₀) (d.Stopped s₀) := by
      cases room with
      | zero => exact .fail fun _ h => h.stopped
      | succ room =>
        refine .within ((hd.traces_value (hd.traces_nested s₀ room s₀.context) []).mono
          (fun _ h => h) ?_ fun _ h => h)
        rintro v m ⟨us, -, hm⟩
        exact hm.stopped
    exact ⟨s₀, rfl, Traces.bind (fun u => hdatum u.room u) fun v => .pure fun m h => h⟩
  | items b start =>
    let s₀ : Session σ := { s with context := .list b :: s.context }
    have hitems (room : Nat) : Traces s.context (d.Reached s₀ s₀.context [])
        ((d.traced.nested room).items b start) ((d.nested room).items b start)
        (fun _ => d.Stopped s₀) (d.Stopped s₀) := by
      refine (hd.traces_nested s₀ room s.context b start []).mono (fun _ h => h) ?_ fun _ h => h
      rintro vs m ⟨us, -, hm⟩
      exact hm.stopped
    exact ⟨s₀, rfl, fun u => hitems u.room u⟩

/-- **A request** asks for each token with the memory that the one before it has left, and leaves
the memory that the last one has left, be it a success or not. -/
theorem linked_leaves (hd : d.Flat) (s : Session σ) (r : Request) :
    ∃ asks, d.Linked s.memory asks (Call.leaves (r.values d) s).memory := by
  obtain ⟨s₀, hmemory, htraces⟩ := hd.traces_values s r
  have hstart : d.Reached s₀ s₀.context [] (s.traced []).memory := by
    refine ⟨?_, rfl⟩
    rw [hmemory]
    exact .nil _ _
  rw [← hmemory]
  rcases htraces (s.traced []) rfl hstart with ⟨vs, u, -, hrun, -, hu⟩ | ⟨e, u, -, hrun, -, hu⟩
  · have hleaves : Call.leaves (r.values d) s = u.plain := Call.leaves_of_ok hrun
    rw [hleaves]
    exact ⟨_, hu.linked⟩
  · have hleaves : Call.leaves (r.values d) s = u.plain := Call.leaves_of_error hrun
    rw [hleaves]
    exact ⟨_, hu.linked⟩

end Dialect.Flat

/-! ## Reachable sessions -/

/-- The sessions that requests lead to, one after the other. Any of them may have failed. -/
inductive Request.Reachable (d : Dialect σ) (s₀ : Session σ) : Session σ → Prop
  | start : Reachable d s₀ s₀
  | step {s : Session σ} (h : Reachable d s₀ s) (r : Request) :
      Reachable d s₀ (Call.leaves (r.values d) s)

/-- Between requests there is as much room as at the beginning. -/
theorem Request.Reachable.room_eq {d : Dialect σ} {s₀ s : Session σ} (h : Reachable d s₀ s)
    (hd : d.Known) : s.room = s₀.room := by
  induction h with
  | start => rfl
  | @step s _ r ih =>
    rw [← ih, Session.room, Session.room, context_leaves hd.uniform, limit_leaves hd.uniform]

namespace Dialect.Sparql

/-- Terms have no parts. -/
theorem Memory.Fair.plain {m : Memory} (hm : m.Fair) : m.Plain where
  blanks id v hv := by
    obtain ⟨h, t, rfl, -⟩ := hm.term (.blank id) v hv
    rfl
  vars name v hv := by
    obtain ⟨h, t, rfl, -⟩ := hm.term (.var name) v hv
    rfl

variable {s₀ s : Session Memory}

/-- In every session that is reached, different names stand for different terms. -/
theorem fair_of_reachable (h : Request.Reachable sparql s₀ s) (hs₀ : s₀.memory.Fair) :
    s.memory.Fair := by
  induction h with
  | start => exact hs₀
  | @step s _ r ih =>
    obtain ⟨asks, hlinked⟩ := Flat.sparql.linked_leaves s r
    exact fair_of_linked hlinked ih

/-- **What is remembered is plain** in every session that requests lead to, whether or not they have
failed. -/
theorem plain_of_reachable {text : List Char} {fault : Option Fault} {ab : Abbreviations}
    {limit : Nat}
    (h : Request.Reachable sparql (.fresh text fault { abbreviations := ab } limit) s) :
    s.memory.Plain := (fair_of_reachable h (fair_start ab)).plain

/-- **The limit** bounds the depth of what is read, whatever has been asked for before. -/
theorem depth_le_of_reachable {text : List Char} {fault : Option Fault} {ab : Abbreviations}
    {limit : Nat}
    (h : Request.Reachable sparql (.fresh text fault { abbreviations := ab } limit) s)
    {r : Request} {u : Session Memory} {vs : List Value} (hread : r.values sparql s = .ok vs u) :
    ∀ v ∈ vs, v.depth ≤ limit := by
  have hroom : s.room = limit := h.room_eq .sparql
  obtain ⟨-, hdepth⟩ := Request.ensures_values PlainWhile.sparql.gives Known.sparql.uniform
    (plain_of_reachable h) r vs u hread
  rw [hroom] at hdepth
  exact hdepth

end Dialect.Sparql

end SExpr
