import SExpr.Proofs.Ensures
import SExpr.Proofs.Tracks

/-!
# What is left to read

What an action leaves of the text depends on the text before it, so that it can be told without
regard to places, and for cursors that do not keep their books as well. From this it follows how
many characters an action takes, those that were put back counted, and that loops come to an end
whose rounds take characters.

* **`Leaves`**: what an action ensures of its result and of the text that it leaves.
* **`Spends`**: how many characters an action takes, depending on its result.
* **`Ends`**: without a bound on its rounds, too, a loop comes to an end.
-/

namespace SExpr

open HasCursor

variable {τ σ α β : Type} [HasCursor τ]

/-! ## The text that is left -/

/-- Before the text `cs`, if the action succeeds, `post` holds of what it returns and of the text it
leaves. -/
def Leaves (x : EStateM Failure τ α) (cs : List Char) (post : α → List Char → Prop) : Prop :=
  ∀ s, (cursor s).unread = cs → Ensures x s fun a s' => post a (cursor s').unread

namespace Leaves

variable {x : EStateM Failure τ α} {f : α → EStateM Failure τ β} {cs : List Char}
  {P : α → List Char → Prop} {Q : β → List Char → Prop}

theorem mono {P' : α → List Char → Prop} (hx : Leaves x cs P)
    (h : ∀ a rest, P a rest → P' a rest) : Leaves x cs P' :=
  fun s hs => (hx s hs).mono fun a s' => h a (cursor s').unread

theorem pure {a : α} (h : P a cs) : Leaves (Pure.pure a : EStateM Failure τ α) cs P :=
  fun _ hs => .pure (hs.symm ▸ h)

theorem throw {e : Failure} : Leaves (MonadExcept.throw e : EStateM Failure τ α) cs P :=
  fun _ _ => .throw

theorem bind (hx : Leaves x cs P) (hf : ∀ a rest, P a rest → Leaves (f a) rest Q) :
    Leaves (x >>= f) cs Q :=
  fun s hs => (hx s hs).bind fun a s' ha => hf a _ ha s' rfl

/-- An action on the cursor alone. -/
theorem onCursor {x : CursorM α} (hx : Leaves x cs P) :
    Leaves (lift x : EStateM Failure τ α) cs P := by
  intro s hs a s' hok
  cases hres : x (cursor s) with
  | error e c =>
    rw [lift_eq, hres] at hok
    cases hok
  | ok b c =>
    rw [lift_eq, hres] at hok
    cases hok
    rw [cursor_setCursor]
    exact hx _ hs _ _ hres

theorem ofHere : Leaves (lift Cursor.here : EStateM Failure τ Pos) cs fun _ rest => rest = cs := by
  refine onCursor fun c hc p c' hok => ?_
  cases hok
  exact hc

/-- To look ahead leaves the text as it is. -/
theorem ofPeek : Leaves (lift Cursor.peek : EStateM Failure τ (Option Char)) cs fun r rest =>
    r = cs.head? ∧ rest = cs := by
  refine onCursor fun c hc => ?_
  subst hc
  exact Cursor.ensures_peek c

/-- To take a character leaves the others. -/
theorem ofTake? : Leaves (lift Cursor.take? : EStateM Failure τ (Option Char)) cs fun r rest =>
    r = cs.head? ∧ rest = cs.tail := by
  refine onCursor fun c hc => ?_
  subst hc
  exact Cursor.ensures_take? c

/-- The next character is taken, or it is missing. -/
theorem ofTake (awaited : Awaited) :
    Leaves (lift (Cursor.take awaited) : EStateM Failure τ Char) cs fun d rest =>
      cs = d :: rest := by
  refine onCursor fun c hc => (Cursor.ensures_take awaited c).mono fun d c' h => ?_
  subst hc
  show c.unread = d :: c'.unread
  rw [h.2]
  exact List.eq_cons_of_mem_head? h.1

theorem here {f : Pos → EStateM Failure τ β} (hf : ∀ p, Leaves (f p) cs Q) :
    Leaves (lift Cursor.here >>= f) cs Q :=
  bind ofHere fun p _ hrest => hrest ▸ hf p

theorem peek {f : Option Char → EStateM Failure τ β} (hf : Leaves (f cs.head?) cs Q) :
    Leaves (lift Cursor.peek >>= f) cs Q := by
  refine bind ofPeek ?_
  rintro _ _ ⟨rfl, rfl⟩
  exact hf

theorem take? {f : Option Char → EStateM Failure τ β} (hf : Leaves (f cs.head?) cs.tail Q) :
    Leaves (lift Cursor.take? >>= f) cs Q := by
  refine bind ofTake? ?_
  rintro _ _ ⟨rfl, rfl⟩
  exact hf

theorem take {awaited : Awaited} {f : Char → EStateM Failure τ β}
    (hf : ∀ d ds, cs = d :: ds → Leaves (f d) ds Q) :
    Leaves (lift (Cursor.take awaited) >>= f) cs Q :=
  bind (ofTake awaited) hf

/-- What is put back is left before the rest. -/
theorem pushBack {text : List Char} {f : Unit → EStateM Failure τ β}
    (hf : Leaves (f ()) (text ++ cs) Q) : Leaves (lift (Cursor.pushBack text) >>= f) cs Q := by
  refine bind (onCursor (P := fun _ rest => rest = text ++ cs) fun c hc => ?_)
    fun _ rest hrest => hrest ▸ hf
  intro _ c' hok
  cases hok
  rw [← hc]
  exact Cursor.unread_foldr_putBack text c

theorem onMemory {f : σ → α × σ} (h : ∀ a, P a cs) :
    Leaves (ReadM.onMemory f : ReadM σ α) cs P := by
  intro s hs a s' hok
  cases hok
  show P _ (cursor s).unread
  rw [hs]
  exact h _

theorem onMemory_bind {f : σ → β × σ} {g : β → ReadM σ α} (hg : ∀ b, Leaves (g b) cs P) :
    Leaves (ReadM.onMemory f >>= g) cs P :=
  bind (P := fun _ rest => rest = cs) (onMemory fun _ => rfl) fun b _ hrest => hrest ▸ hg b

theorem stray {b : Bracket} {p : Pos} : Leaves (ReadM.stray b p : ReadM σ α) cs P :=
  fun _ _ => ReadM.ensures_stray

theorem within {x : ReadM σ α} {frame : Frame} (hx : Leaves x cs P) :
    Leaves (ReadM.within frame x) cs P :=
  fun _ hs => ReadM.ensures_within (hx _ hs)

/-- What each round keeps, and what the last one makes of it, holds after the loop. -/
theorem loop {step : β → EStateM Failure τ (β ⊕ α)} {b : β} (inv : β → List Char → Prop)
    (hstep : ∀ b cs, inv b cs → Leaves (step b) cs fun
      | .inl b', rest => inv b' rest
      | .inr a, rest => P a rest)
    (h : inv b cs) : Leaves (HasCursor.loop step b) cs P := by
  intro s hs
  refine Ensures.loop (fun b s => inv b (cursor s).unread) (fun s a s' hok => ?_)
    (fun b s hinv => ?_) (hs.symm ▸ h)
  · rw [lift_eq] at hok
    cases hok
  · exact (hstep b _ hinv s rfl).mono fun r s' hr => by cases r <;> exact hr

end Leaves

/-! ## Actions that agree -/

/-- Before the text `cs` it makes no difference which of the actions is run. -/
def Agree (cs : List Char) (x y : EStateM Failure τ α) : Prop :=
  ∀ s, (cursor s).unread = cs → x s = y s

namespace Agree

variable {cs : List Char} {f g : β → EStateM Failure τ α}

theorem refl (x : EStateM Failure τ α) : Agree cs x x := fun _ _ => rfl

/-- The first part is the same, and so is the text that is left for the second. -/
theorem bind {x : EStateM Failure τ β} {P : β → List Char → Prop} (hx : Leaves x cs P)
    (h : ∀ b rest, P b rest → Agree rest (f b) (g b)) : Agree cs (x >>= f) (x >>= g) := by
  intro s hs
  cases hres : x s with
  | error e s' => rw [bind_of_error hres, bind_of_error hres]
  | ok b s' =>
    rw [bind_of_ok hres, bind_of_ok hres]
    exact h b _ (hx s hs b s' hres) s' rfl

theorem bind_right {x y : EStateM Failure τ β} (h : Agree cs x y) :
    Agree cs (x >>= f) (y >>= f) := by
  intro s hs
  simp only [Bind.bind, EStateM.bind, h s hs]

end Agree

/-! ## Characters that are taken -/

/-- An action that succeeds takes at least as many characters as `weight` says of its result. What
it puts back it has not taken. -/
def Spends (x : EStateM Failure τ α) (weight : α → Nat) : Prop :=
  ∀ cs, Leaves x cs fun a rest => rest.length + weight a ≤ cs.length

/-- An action that succeeds leaves no more characters than there were. -/
abbrev Shortens (x : EStateM Failure τ α) : Prop := Spends x fun _ => 0

namespace Spends

variable {x : EStateM Failure τ α} {weight : α → Nat}

theorem shortens (hx : Spends x weight) : Shortens x :=
  fun cs => (hx cs).mono fun _ _ h => (Nat.le_add_right ..).trans h

theorem onCursor {x : CursorM α} (hx : Spends x weight) :
    Spends (lift x : EStateM Failure τ α) weight := fun cs => .onCursor (hx cs)

end Spends

/-- After one more character was taken, still less is left. -/
theorem Shortens.after_cons {x : EStateM Failure τ α} (hx : Shortens x) (d : Char)
    (ds : List Char) : Leaves x ds fun _ rest => rest.length + 0 ≤ (d :: ds).length :=
  (hx ds).mono fun _ _ h => h.trans (Nat.le_succ _)

theorem Cursor.spends_take (awaited : Awaited) : Spends (Cursor.take awaited) fun _ => 1 := by
  refine fun cs => (Leaves.ofTake (τ := Cursor) awaited).mono fun d rest h => ?_
  rw [h]
  exact Nat.le_refl _

/-- A loop whose rounds put nothing back but what they have taken. -/
theorem Shortens.loop {step : β → EStateM Failure τ (β ⊕ α)} (hstep : ∀ b, Shortens (step b))
    (b : β) : Shortens (HasCursor.loop step b) := by
  intro cs
  refine .loop (fun _ rest => rest.length ≤ cs.length) (fun b rest hrest => ?_) (Nat.le_refl _)
  refine (hstep b rest).mono fun r rest' h => ?_
  cases r <;> exact h.trans hrest

/-! ## Loops without a bound -/

section Rounds

variable {ε γ : Type} {step : β → EStateM ε σ (β ⊕ α)}

/-- Without any bound, a loop goes on for so many rounds, and then the next one is the last, with
the given result. -/
inductive Rounds (step : β → EStateM ε σ (β ⊕ α)) :
    Nat → β → σ → EStateM.Result ε σ α → Prop where
  | done {b : β} {s s' : σ} {a : α} : step b s = .ok (.inr a) s' → Rounds step 0 b s (.ok a s')
  | failed {b : β} {s s' : σ} {e : ε} : step b s = .error e s' → Rounds step 0 b s (.error e s')
  | more {b b' : β} {s s' : σ} {n : Nat} {r : EStateM.Result ε σ α} :
    step b s = .ok (.inl b') s' → Rounds step n b' s' r → Rounds step (n + 1) b s r

/-- If the rounds that go on make the state smaller, a loop comes to its end while its allowance
lasts. -/
theorem exists_rounds {stuck : EStateM ε σ α} (size : σ → Nat)
    (shrinks : ∀ b s b' s', step b s = .ok (.inl b') s' → size s' < size s) {xs : List γ}
    (b : β) (s : σ) (hxs : size s ≤ xs.length) :
    ∃ n ≤ size s, Rounds step n b s (SExpr.loop step stuck xs b s) := by
  -- The induction is on the allowance, which covers the size and so is never found used up.
  induction xs generalizing b s with
  | nil =>
    unfold SExpr.loop
    cases hstep : step b s with
    | error e s' => exact ⟨0, Nat.zero_le _, .failed hstep⟩
    | ok r s' =>
      cases r with
      | inr a => exact ⟨0, Nat.zero_le _, .done hstep⟩
      | inl b' => exact absurd (shrinks _ _ _ _ hstep) (by simp at hxs; omega)
  | cons x xs ih =>
    unfold SExpr.loop
    cases hstep : step b s with
    | error e s' => exact ⟨0, Nat.zero_le _, .failed hstep⟩
    | ok r s' =>
      cases r with
      | inr a => exact ⟨0, Nat.zero_le _, .done hstep⟩
      | inl b' =>
        have hlt := shrinks _ _ _ _ hstep
        rw [List.length_cons] at hxs
        obtain ⟨n, hn, hrounds⟩ := ih b' s' (by omega)
        exact ⟨n + 1, by omega, .more hstep hrounds⟩

end Rounds

/-- Without any bound the loop comes to an end, with the result that it has with the bound. It goes
on for at most as many rounds as there are characters. -/
def Ends (step : β → EStateM Failure τ (β ⊕ α)) (b : β) (s : τ) : Prop :=
  ∃ n ≤ (cursor s).unread.length, Rounds step n b s (HasCursor.loop step b s)

/-- How many characters a round of a loop has to take: one, if the loop goes on. -/
def goingOn : β ⊕ α → Nat
  | .inl _ => 1
  | .inr _ => 0

/-- A loop whose rounds take characters comes to an end. -/
theorem ends_of_spends {step : β → EStateM Failure τ (β ⊕ α)}
    (hstep : ∀ b, Spends (step b) goingOn) (b : β) (s : τ) : Ends step b s := by
  refine exists_rounds (fun s => (cursor s).unread.length) (fun b s b' s' hround => ?_) b s
    (Nat.le_of_eq (cursor s).length_located.symm)
  exact hstep b _ s rfl _ _ hround

end SExpr
