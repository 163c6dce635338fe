/-!
# Loops over the input

Reading repeats steps that take characters off the input. Such a loop ends, for there is only so
much input; so it runs with the unread characters as its allowance, one round for each and one
more to see the end.

`loop_of_size_le` says that the allowance does not matter once it suffices, and `loop_unroll` that
the loop then satisfies the equation of an unbounded one.
-/

namespace SExpr

/-- Repeats `step` until it is done, with one round more than `allowance` has elements. `stuck`
is the answer if the rounds do not suffice, which needs a step that takes no character. -/
def loop {ε σ α β γ : Type} (step : α → EStateM ε σ (α ⊕ β)) (stuck : EStateM ε σ β) :
    List γ → α → EStateM ε σ β
  | allowance, a => fun s =>
    match step a s with
    | .error e s => .error e s
    | .ok (.inr b) s => .ok b s
    | .ok (.inl a) s =>
      match allowance with
      | [] => stuck s
      | _ :: allowance => loop step stuck allowance a s

variable {ε σ α β γ : Type} {step : α → EStateM ε σ (α ⊕ β)} {stuck : EStateM ε σ β}

/-- Only the length of an allowance matters. -/
theorem loop_of_length_eq {δ : Type} {xs : List γ} {ys : List δ} (h : xs.length = ys.length) :
    loop step stuck xs = loop step stuck ys := by
  induction xs generalizing ys with
  | nil =>
    obtain rfl := List.eq_nil_of_length_eq_zero h.symm
    funext a s
    unfold loop
    rcases step a s with ⟨_ | _, _⟩ | ⟨_, _⟩ <;> rfl
  | cons x xs ih =>
    cases ys with
    | nil => cases h
    | cons y ys =>
      funext a s
      unfold loop
      rcases step a s with ⟨a' | b, s'⟩ | ⟨e, s'⟩
      · exact congrFun (congrFun (ih (Nat.succ.inj h)) a') s'
      · rfl
      · rfl

/-- If each round that goes on makes the state smaller, any two allowances that cover its size
give the same answer. It is enough if that is so for the states that the rounds lead to. -/
theorem loop_of_size_le (size : σ → Nat) (inv : σ → Prop)
    (shrinks : ∀ a s a' s', inv s → step a s = .ok (.inl a') s' → inv s' ∧ size s' < size s)
    {xs ys : List γ} {a : α} {s : σ} (hs : inv s) (hxs : size s ≤ xs.length)
    (hys : size s ≤ ys.length) :
    loop step stuck xs a s = loop step stuck ys a s := by
  induction xs generalizing ys a s with
  | nil =>
    unfold loop
    cases hstep : step a s with
    | error e s' => rfl
    | ok r s' =>
      cases r with
      | inr b => rfl
      | inl a' =>
        have hlt := (shrinks _ _ _ _ hs hstep).2
        simp only [List.length_nil, Nat.le_zero_eq] at hxs
        omega
  | cons x xs ih =>
    unfold loop
    cases hstep : step a s with
    | error e s' => rfl
    | ok r s' =>
      cases r with
      | inr b => rfl
      | inl a' =>
        obtain ⟨hs', hlt⟩ := shrinks _ _ _ _ hs hstep
        cases ys with
        | nil =>
          simp only [List.length_nil, Nat.le_zero_eq] at hys
          omega
        | cons y ys =>
          simp only [List.length_cons] at hxs hys
          exact ih hs' (by omega) (by omega)

/-- A loop whose rounds make the state smaller is one round and the same loop again, each time with
the state's own allowance. -/
theorem loop_unroll {allowance : σ → List γ} (inv : σ → Prop)
    (shrinks : ∀ a s a' s', inv s → step a s = .ok (.inl a') s' →
      inv s' ∧ (allowance s').length < (allowance s).length) (a : α) {s : σ} (hs : inv s) :
    loop step stuck (allowance s) a s =
      match step a s with
      | .error e s' => .error e s'
      | .ok (.inr b) s' => .ok b s'
      | .ok (.inl a') s' => loop step stuck (allowance s') a' s' := by
  conv => lhs; unfold loop
  cases hstep : step a s with
  | error e s' => rfl
  | ok r s' =>
    cases r with
    | inr b => rfl
    | inl a' =>
      obtain ⟨hs', hlt⟩ := shrinks _ _ _ _ hs hstep
      cases hal : allowance s with
      | nil => simp [hal] at hlt
      | cons x xs =>
        rw [hal, List.length_cons] at hlt
        exact loop_of_size_le (fun s => (allowance s).length) inv shrinks hs'
          (Nat.le_of_lt_succ hlt) (Nat.le_refl _)

end SExpr
