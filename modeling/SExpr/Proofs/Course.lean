import SExpr.Proofs.Surroundings

/-!
# The course of a reading

However values are asked for, one after the other or all at once, there is only one course that
reading can take: some values, and then the end or a failure.

* **`Dialect.Course`**: the course from a session on, as a relation.
* **`Dialect.exists_course`**: there always is one.
* **`Course.readAll`**, **`Course.stream`**: it tells what reading all values does, and what reading
  value by value does.
-/

namespace SExpr.Dialect

open HasCursor ReadM

variable {σ : Type}

/-- From `s` on the values `vs` can be read, and then comes the end, or the failure `stop`; either
way `u` is left. -/
inductive Course (d : Dialect σ) :
    Session σ → List Value → Option Failure → Session σ → Prop where
  | ended {s u : Session σ} : d.value? s = .ok none u → Course d s [] none u
  | failed {s u : Session σ} {e : Failure} : d.value? s = .error e u → Course d s [] (some e) u
  | more {s t u : Session σ} {v : Value} {vs : List Value} {stop : Option Failure} :
    d.value? s = .ok (some v) t → Course d t vs stop u → Course d s (v :: vs) stop u

/-- All the values, unless a failure has stopped the reading. -/
def unlessStopped (vs : List Value) (u : Session σ) :
    Option Failure → EStateM.Result Failure (Session σ) (List Value)
  | none => .ok vs u
  | some e => .error e u

variable {d : Dialect σ} {fault : Option Fault} {p : Pos} {cs : List Char} {s t u : Session σ}
  {v : Value} {vs taken : List Value} {stop : Option Failure}

/-! ## One value -/

/-- A round of `readAll` reads one value, if there is one. -/
theorem readAllRound_eq_value? (d : Dialect σ) (taken : List Value) (s : Session σ) :
    d.readAllRound taken s =
      match d.value? s with
      | .ok (some v) u => .ok (.inl (v :: taken)) u
      | .ok none u => .ok (.inr taken.reverse) u
      | .error e u => .error e u := by
  have hvalue : d.value? s = (d.item (d.nested s.room) >>= Tracked.optional) s := rfl
  rw [readAllRound_eq, hvalue]
  cases hitem : d.item (d.nested s.room) s with
  | error e u => rw [bind_of_error hitem, bind_of_error hitem]
  | ok item u =>
    rw [bind_of_ok hitem, bind_of_ok hitem]
    cases item <;> rfl

/-- A value takes characters. -/
theorem Tracked.length_lt_of_value? (hd : d.Tracked) (hs : s.cursor.At d.isAtomChar p cs fault)
    (h : d.value? s = .ok (some v) t) :
    ∃ p' rest, t.cursor.At d.isAtomChar p' rest fault ∧ rest.length < cs.length := by
  have hround : d.readAllRound [] s = .ok (.inl [v]) t := by rw [readAllRound_eq_value?, h]
  have htracks := hd.readAllRound (t := { cut := fault }) [] p cs
  obtain ⟨front, rest, -, ht, hshrinks, -⟩ := htracks.of_ok hs hround
  exact ⟨p.advanceAll front, rest, ht, hshrinks [v] rfl⟩

theorem streamRound_of_some (taken : List Value) (hfailed : s.failed = false)
    (h : d.value? s = .ok (some v) t) : d.streamRound taken s = .ok (.inl (v :: taken)) t := by
  unfold streamRound
  rw [Tracked.next?_of_ok hfailed h]

/-- A round of `stream` reads one value, if there is one. -/
theorem streamRound_cases (d : Dialect σ) (taken : List Value) (s : Session σ) :
    (∃ v t, d.value? s = .ok (some v) t ∧ d.streamRound taken s = .ok (.inl (v :: taken)) t) ∨
      ∃ stop t, d.streamRound taken s = .ok (.inr (taken.reverse, stop)) t := by
  unfold streamRound next?
  cases s.failed with
  | true => exact .inr ⟨none, s, rfl⟩
  | false =>
    cases h : d.value? s with
    | error e t => exact .inr ⟨some e, { t with failed := true }, rfl⟩
    | ok r t =>
      cases r with
      | none => exact .inr ⟨none, t, rfl⟩
      | some v => exact .inl ⟨v, t, rfl, rfl⟩

/-- A round that goes on has taken a value. -/
theorem of_streamRound {taken taken' : List Value}
    (h : d.streamRound taken s = .ok (.inl taken') t) :
    ∃ v, taken' = v :: taken ∧ d.value? s = .ok (some v) t := by
  obtain ⟨v, t', hvalue, hcase⟩ | ⟨stop, t', hcase⟩ := streamRound_cases d taken s
  · cases hcase.symm.trans h
    exact ⟨v, rfl, hvalue⟩
  · cases hcase.symm.trans h

/-- Reading value by value goes on after a value. -/
theorem Tracked.loop_streamRound_of_more (hd : d.Tracked)
    (hs : s.cursor.At d.isAtomChar p cs fault) (hfailed : s.failed = false)
    (h : d.value? s = .ok (some v) t) :
    ReadM.loop d.streamRound taken s = ReadM.loop d.streamRound (v :: taken) t := by
  -- The rounds that go on are those that read a value, and a value takes characters.
  have htakes : ∀ taken s taken' t, (∃ p cs, s.cursor.At d.isAtomChar p cs fault) →
      d.streamRound taken s = .ok (.inl taken') t →
      (∃ p cs, t.cursor.At d.isAtomChar p cs fault) ∧
        t.cursor.located.length < s.cursor.located.length := by
    intro taken s taken' t hs h
    obtain ⟨p, cs, hs⟩ := hs
    obtain ⟨v, -, h⟩ := of_streamRound h
    obtain ⟨p', rest, ht, hlt⟩ := hd.length_lt_of_value? hs h
    refine ⟨⟨p', rest, ht⟩, ?_⟩
    rw [Cursor.length_located, Cursor.length_located, hs.unread, ht.unread]
    exact hlt
  have hunroll := @loop_unroll Failure (Session σ) _ _ (Char × Pos) d.streamRound
    (onCursor Cursor.stuck) (fun s => s.cursor.located) _ htakes taken s ⟨p, cs, hs⟩
  rw [streamRound_of_some taken hfailed h] at hunroll
  exact hunroll

/-! ## All values -/

namespace Course

/-- **Reading all values** gives the values of the course, unless it ends with a failure. -/
theorem loop_readAllRound (hd : d.Tracked) (h : d.Course s vs stop u)
    (hs : s.cursor.At d.isAtomChar p cs fault) (taken : List Value) :
    ReadM.loop d.readAllRound taken s = unlessStopped (taken.reverse ++ vs) u stop := by
  induction h generalizing p cs taken with
  | @ended s u h =>
    have hround : d.readAllRound taken s = .ok (.inr taken.reverse) u := by
      rw [readAllRound_eq_value?, h]
    rw [List.append_nil]
    exact loop_of_done (τ := Session σ) hround
  | @failed s u e h =>
    have hround : d.readAllRound taken s = .error e u := by rw [readAllRound_eq_value?, h]
    exact loop_of_error (τ := Session σ) hround
  | @more s t u v vs stop h _ ih =>
    have hround : d.readAllRound taken s = .ok (.inl (v :: taken)) t := by
      rw [readAllRound_eq_value?, h]
    obtain ⟨p', rest, ht, -⟩ := hd.length_lt_of_value? hs h
    rw [hd.loop_readAllRound_of_more hs hround, ih ht (v :: taken), List.reverse_cons,
      List.append_assoc, List.singleton_append]

/-- **Reading all values** gives those of the course, unless it ends with a failure. -/
theorem readAll (hd : d.Tracked) (h : d.Course s vs stop u)
    (hs : s.cursor.At d.isAtomChar p cs fault) :
    d.readAll s = unlessStopped vs u stop :=
  h.loop_readAllRound hd hs []

/-- **Reading value by value** gives the values of the course, and the failure that it may end
with. -/
theorem loop_streamRound (hd : d.Tracked) (huniform : d.Uniform) (h : d.Course s vs stop u)
    (hs : s.cursor.At d.isAtomChar p cs fault) (hfailed : s.failed = false) (taken : List Value) :
    ReadM.loop d.streamRound taken s =
      .ok (taken.reverse ++ vs, stop) { u with failed := stop.isSome } := by
  -- The induction is on the course: its end, its failure, or one more value.
  induction h generalizing p cs taken with
  | @ended s u h =>
    have hround : d.streamRound taken s = .ok (.inr (taken.reverse, none)) u := by
      unfold streamRound
      rw [Tracked.next?_of_ok hfailed h]
    have hu : ({ u with failed := false } : Session σ) = u := by
      rw [huniform.value?_keeps.eq_moved_of_ok h]
      show ({ s.moved u with failed := false } : Session σ) = s.moved u
      rw [← hfailed]
      rfl
    rw [List.append_nil]
    show _ = EStateM.Result.ok (taken.reverse, none) { u with failed := false }
    rw [hu]
    exact loop_of_done (τ := Session σ) hround
  | @failed s u e h =>
    have hround : d.streamRound taken s
        = .ok (.inr (taken.reverse, some e)) { u with failed := true } := by
      unfold streamRound
      rw [Tracked.next?_of_error hfailed h]
    rw [List.append_nil]
    exact loop_of_done (τ := Session σ) hround
  | @more s t u v vs stop h _ ih =>
    obtain ⟨p', rest, ht, -⟩ := hd.length_lt_of_value? hs h
    have htfailed : t.failed = false := by
      rw [huniform.value?_keeps.eq_moved_of_ok h]
      exact hfailed
    rw [hd.loop_streamRound_of_more hs hfailed h, ih ht htfailed (v :: taken), List.reverse_cons,
      List.append_assoc, List.singleton_append]

/-- Reading value by value, from the beginning. -/
theorem stream (hd : d.Tracked) (huniform : d.Uniform) (h : d.Course s vs stop u)
    (hs : s.cursor.At d.isAtomChar p cs fault) (hfailed : s.failed = false) :
    d.stream s = .ok (vs, stop) { u with failed := stop.isSome } :=
  h.loop_streamRound hd huniform hs hfailed []

end Course

/-- **There is a course** from any session that knows its place. -/
theorem exists_course (hd : d.Tracked) (hs : s.cursor.At d.isAtomChar p cs fault) :
    ∃ vs stop u, d.Course s vs stop u := by
  -- Each value makes the text shorter that is left.
  induction hlength : cs.length using Nat.strong_induction_on generalizing p cs s with
  | _ n ih =>
    subst hlength
    cases h : d.value? s with
    | error e u => exact ⟨[], some e, u, .failed h⟩
    | ok r t =>
      cases r with
      | none => exact ⟨[], none, t, .ended h⟩
      | some v =>
        obtain ⟨p', rest, ht, hlt⟩ := hd.length_lt_of_value? hs h
        obtain ⟨vs, stop, u, hrest⟩ := ih rest.length hlt ht rfl
        exact ⟨v :: vs, stop, u, .more h hrest⟩

end SExpr.Dialect
