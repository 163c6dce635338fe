import SExpr.Proofs.Course

/-!
# The limit on nesting

The limit decides only whether a reading goes too deep. A reading that does not is the same with any
higher limit: it gives the same values or the same failure, and leaves the session at the same place
with the same memory.

* **`Uniform.nested_alike`**: what is nested is read alike with more room, unless there is too
  little of it.
* **`Course.withLimit`**: a course that does not end too deep is the course with a higher limit.
* **`Dialect.reading_eq_of_limit_le`**: all entry points.
-/

namespace SExpr

variable {σ α : Type}

/-- Something is nested deeper than the limit allows. -/
def Failure.IsTooDeep (e : Failure) : Prop := e.cause = .tooDeep

instance : DecidablePred Failure.IsTooDeep := fun e => inferInstanceAs (Decidable (e.cause = _))

namespace Session

/-- The session with another limit. -/
def withLimit (limit : Nat) (s : Session σ) : Session σ := { s with limit }

/-- What an action has left, with another limit. -/
def resultWithLimit (limit : Nat) :
    EStateM.Result Failure (Session σ) α → EStateM.Result Failure (Session σ) α
  | .ok a s => .ok a (s.withLimit limit)
  | .error e s => .error e (s.withLimit limit)

/-- The failure that an action has ended with. -/
def failure? : EStateM.Result Failure (Session σ) α → Option Failure
  | .ok _ _ => none
  | .error e _ => some e

/-- The failure that reading value by value has ended with. -/
def streamFailure? : EStateM.Result Failure (Session σ) (List Value × Option Failure) →
    Option Failure
  | .ok (_, stop) _ => stop
  | .error e _ => some e

theorem room_le_of_limit_le {s : Session σ} {limit : Nat} (hle : s.limit ≤ limit) :
    s.room ≤ (s.withLimit limit).room := by
  show s.limit - s.context.length ≤ limit - s.context.length
  omega

end Session

/-- An action that is alike with a higher limit, and does not go too deep, is the same. -/
theorem Alike.eq_resultWithLimit {x : ReadM σ α} {s : Session σ} {limit : Nat}
    (hx : Alike Failure.IsTooDeep s (s.withLimit limit) x x)
    (hdeep : ∀ e ∈ Session.failure? (x s), ¬ e.IsTooDeep) :
    x (s.withLimit limit) = Session.resultWithLimit limit (x s) := by
  rcases hx s with ⟨e, u, herror, hout⟩ | ⟨r, h₁, h₂⟩
  · have herror : x s = .error e u := herror
    rw [herror] at hdeep
    exact absurd hout (hdeep e rfl)
  · have h₁ : x s = s.movedResult r := h₁
    have h₂ : x (s.withLimit limit) = (s.withLimit limit).movedResult r := h₂
    rw [h₁, h₂]
    cases r with
    | ok a u => rfl
    | error e u => rfl

namespace Dialect

variable {d : Dialect σ}

/-- **What is nested** is read alike with more room. -/
theorem Uniform.nested_alike (hd : d.Uniform) {room more : Nat} (hle : room ≤ more)
    {u₁ u₂ : Session σ} (hcontext : u₁.context = u₂.context) :
    Nested.Alike Failure.IsTooDeep u₁ u₂ (d.nested room) (d.nested more) := by
  -- The induction is on the smaller room: where it is used up, the first reading gives up.
  induction room generalizing more u₁ u₂ with
  | zero => exact ⟨fun _ => .of_out rfl, fun _ _ => .of_out rfl⟩
  | succ room ih =>
    cases more with
    | zero => omega
    | succ more =>
      have hle : room ≤ more := by omega
      have hopened (frame : Frame) : (u₁.opened frame).context = (u₂.opened frame).context :=
        congrArg (List.cons frame) hcontext
      constructor
      · intro start
        exact .within (hd.alike.value (ih hle (hopened .mark)) (hopened .mark))
      · intro b start
        exact .within (hd.alike.items (ih hle (hopened (.list b))) (hopened (.list b)) b start)

section

variable {s u : Session σ} {limit : Nat}

theorem Uniform.nested_alike_withLimit (hd : d.Uniform) (hle : s.limit ≤ limit) :
    Nested.Alike Failure.IsTooDeep s (s.withLimit limit) (d.nested s.room)
      (d.nested (s.withLimit limit).room) :=
  hd.nested_alike (Session.room_le_of_limit_le hle) rfl

theorem Uniform.read_alike (hd : d.Uniform) (hle : s.limit ≤ limit) :
    Alike Failure.IsTooDeep s (s.withLimit limit) d.read d.read :=
  hd.alike.value (hd.nested_alike_withLimit hle) rfl

theorem Uniform.readAll_alike (hd : d.Uniform) (hle : s.limit ≤ limit) :
    Alike Failure.IsTooDeep s (s.withLimit limit) d.readAll d.readAll :=
  hd.alike.readAll (hd.nested_alike_withLimit hle) rfl

/-- The next value with a higher limit, unless it is too deep. -/
theorem Uniform.value?_eq_resultWithLimit (hd : d.Uniform) (hle : s.limit ≤ limit)
    (hdeep : ∀ e ∈ Session.failure? (d.value? s), ¬ e.IsTooDeep) :
    d.value? (s.withLimit limit) = Session.resultWithLimit limit (d.value? s) :=
  (hd.alike.value? (hd.nested_alike_withLimit hle) rfl).eq_resultWithLimit hdeep

/-- **A course** that does not end too deep is the course with a higher limit. -/
theorem Course.withLimit {vs : List Value} {stop : Option Failure} (hd : d.Uniform)
    (h : d.Course s vs stop u) (hle : s.limit ≤ limit) (hdeep : ∀ e ∈ stop, ¬ e.IsTooDeep) :
    d.Course (s.withLimit limit) vs stop (u.withLimit limit) := by
  -- No value that has been read was too deep, so only the end of the course is in question.
  induction h with
  | ended h =>
    have hvalue := hd.value?_eq_resultWithLimit hle (by rw [h]; exact nofun)
    rw [h] at hvalue
    exact .ended hvalue
  | failed h =>
    have hvalue := hd.value?_eq_resultWithLimit hle (by rw [h]; exact hdeep)
    rw [h] at hvalue
    exact .failed hvalue
  | @more s t u v vs stop h _ ih =>
    have hvalue := hd.value?_eq_resultWithLimit hle (by rw [h]; exact nofun)
    rw [h] at hvalue
    have hlimit : t.limit = s.limit := by rw [hd.value?_keeps.eq_moved_of_ok h]; rfl
    exact .more hvalue (ih (by omega) hdeep)

end

/-- **The limit is only a limit.** If reading one value, all values or value by value does not end
because something is nested too deep, then with any higher limit it gives the same values or the
same failure, and leaves the same session but for the limit. -/
theorem reading_eq_of_limit_le (d : Dialect σ) (hd : d.Known) (text : List Char)
    (fault : Option Fault) (memory : σ) (limit higher : Nat) (hle : limit ≤ higher) :
    ((∀ e ∈ Session.failure? (d.read (.fresh text fault memory limit)), ¬ e.IsTooDeep) →
      d.read (.fresh text fault memory higher)
        = Session.resultWithLimit higher (d.read (.fresh text fault memory limit))) ∧
    ((∀ e ∈ Session.failure? (d.readAll (.fresh text fault memory limit)), ¬ e.IsTooDeep) →
      d.readAll (.fresh text fault memory higher)
        = Session.resultWithLimit higher (d.readAll (.fresh text fault memory limit))) ∧
    ((∀ e ∈ Session.streamFailure? (d.stream (.fresh text fault memory limit)), ¬ e.IsTooDeep) →
      d.stream (.fresh text fault memory higher)
        = Session.resultWithLimit higher (d.stream (.fresh text fault memory limit))) := by
  have hlow := Session.fresh_at d.isAtomChar text fault memory limit
  have hhigh := Session.fresh_at d.isAtomChar text fault memory higher
  have hfresh : Session.fresh text fault memory higher
      = (Session.fresh text fault memory limit).withLimit higher := rfl
  refine ⟨?_, ?_, ?_⟩
  · exact (hd.uniform.read_alike hle).eq_resultWithLimit
  · exact (hd.uniform.readAll_alike hle).eq_resultWithLimit
  · -- Value by value there is more than one reading, so the course is taken.
    intro hdeep
    obtain ⟨vs, stop, u, hcourse⟩ := exists_course hd.tracked hlow
    have hstream := hcourse.stream hd.tracked hd.uniform hlow rfl
    rw [hstream] at hdeep ⊢
    have hcourse := hcourse.withLimit hd.uniform hle hdeep
    rw [← hfresh] at hcourse
    exact hcourse.stream hd.tracked hd.uniform hhigh rfl

/-- A datum that is commented out takes three levels, and a bracket too many ends the document. -/
theorem reading_eq_of_limit_le_scheme :
    scheme.read (.fresh "#;(a [b]) c )".toList none () 500)
      = Session.resultWithLimit 500 (scheme.read (.fresh "#;(a [b]) c )".toList none () 3)) ∧
    scheme.readAll (.fresh "#;(a [b]) c )".toList none () 500)
      = Session.resultWithLimit 500 (scheme.readAll (.fresh "#;(a [b]) c )".toList none () 3)) ∧
    scheme.stream (.fresh "#;(a [b]) c )".toList none () 500)
      = Session.resultWithLimit 500 (scheme.stream (.fresh "#;(a [b]) c )".toList none () 3)) := by
  have hreading := reading_eq_of_limit_le scheme .scheme "#;(a [b]) c )".toList none () 3 500
    (by decide)
  exact ⟨hreading.1 (by decide +kernel), hreading.2.1 (by decide +kernel),
    hreading.2.2 (by decide +kernel)⟩

/-- With less room the comment itself goes too deep. -/
example : (Session.failure? (scheme.read (.fresh "#;(a [b]) c )".toList none () 2))).map
    Failure.cause = some .tooDeep := by decide +kernel

end Dialect

end SExpr
