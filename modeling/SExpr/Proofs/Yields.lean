import SExpr.Proofs.Place
import SExpr.Session

/-!
# What an action yields

A cursor over a sound source is, up to the places it reports, the characters it has not taken
yet. This module states what an action does in those terms.

* **`Cursor.Before`**: the cursor stands before the given characters, and the source does not
  break off after them.
* **`CursorM.Yields`** and **`ReadM.Yields`**: before the given characters the action succeeds with
  a given result and leaves the given rest. Both compose along `bind`, so that what a reader does
  is read off its text.
* **`Yields.loop_done`**, **`Yields.loop_more`**: one round of a loop at a time. A round has to take
  a character only where it is used, so no fact about all rounds of a reader is needed first.
-/

namespace SExpr

/-! ## Loops that have answered -/

section Loop

variable {ε σ α β γ : Type} {step : α → EStateM ε σ (α ⊕ β)} {stuck : EStateM ε σ β}

/-- **A larger allowance does not change an answer.** If being stuck is a failure, an answer was
found within the allowance. -/
theorem loop_ok_mono (hstuck : ∀ s b s', stuck s ≠ .ok b s') {xs ys : List γ} {a : α} {s : σ}
    {b : β} {s' : σ} (h : loop step stuck xs a s = .ok b s') (hle : xs.length ≤ ys.length) :
    loop step stuck ys a s = .ok b s' := by
  -- The induction is on the smaller allowance: only there can the loop come to its end.
  induction xs generalizing ys a s with
  | nil =>
    unfold loop at h ⊢
    cases hstep : step a s with
    | error e s₁ => simp [hstep] at h
    | ok r s₁ =>
      cases r with
      | inr b₁ => simpa [hstep] using h
      | inl a₁ =>
        simp only [hstep] at h
        exact absurd h (hstuck _ _ _)
  | cons x xs ih =>
    unfold loop at h ⊢
    cases hstep : step a s with
    | error e s₁ => simp [hstep] at h
    | ok r s₁ =>
      cases r with
      | inr b₁ => simpa [hstep] using h
      | inl a₁ =>
        simp only [hstep] at h
        cases ys with
        | nil => simp at hle
        | cons y ys => exact ih h (by simpa using hle)

/-- A round that takes something off the allowance, and the answer of the rest. -/
theorem loop_ok_more (hstuck : ∀ s b s', stuck s ≠ .ok b s') (allowance : σ → List γ)
    {a a' : α} {s s₁ s' : σ} {b : β} (hstep : step a s = .ok (.inl a') s₁)
    (hlt : (allowance s₁).length < (allowance s).length)
    (hrest : loop step stuck (allowance s₁) a' s₁ = .ok b s') :
    loop step stuck (allowance s) a s = .ok b s' := by
  unfold loop
  simp only [hstep]
  cases hal : allowance s with
  | nil => simp [hal] at hlt
  | cons x xs =>
    rw [hal, List.length_cons] at hlt
    exact loop_ok_mono hstuck hrest (Nat.le_of_lt_succ hlt)

/-- **The run of a loop that has answered.** What each round keeps, and what the last round makes of
it, holds of the answer. -/
theorem loop_ok_induct (hstuck : ∀ s b s', stuck s ≠ .ok b s') {Inv : α → σ → Prop}
    {Post : β → σ → Prop} (hmore : ∀ a s a' s', Inv a s → step a s = .ok (.inl a') s' → Inv a' s')
    (hdone : ∀ a s b s', Inv a s → step a s = .ok (.inr b) s' → Post b s')
    {xs : List γ} {a : α} {s : σ} {b : β} {s' : σ} (hinv : Inv a s)
    (h : loop step stuck xs a s = .ok b s') : Post b s' := by
  -- The two cases differ in what is left to do after a round: here nothing, below the other
  -- rounds.
  induction xs generalizing a s with
  | nil =>
    unfold loop at h
    cases hstep : step a s with
    | error e s₁ => simp [hstep] at h
    | ok r s₁ =>
      cases r with
      | inr b₁ =>
        simp only [hstep, EStateM.Result.ok.injEq] at h
        obtain ⟨rfl, rfl⟩ := h
        exact hdone _ _ _ _ hinv hstep
      | inl a₁ =>
        simp only [hstep] at h
        exact absurd h (hstuck _ _ _)
  | cons x xs ih =>
    unfold loop at h
    cases hstep : step a s with
    | error e s₁ => simp [hstep] at h
    | ok r s₁ =>
      cases r with
      | inr b₁ =>
        simp only [hstep, EStateM.Result.ok.injEq] at h
        obtain ⟨rfl, rfl⟩ := h
        exact hdone _ _ _ _ hinv hstep
      | inl a₁ =>
        simp only [hstep] at h
        exact ih (hmore _ _ _ _ hinv hstep) h

end Loop

/-! ## Cursors -/

/-- The cursor stands before `cs`, and the source does not break off after it. -/
structure Cursor.Before (c : Cursor) (cs : List Char) : Prop where
  unread : c.unread = cs
  fault : c.source.fault = none

theorem Cursor.At.before {q : Char → Bool} {p : Pos} {cs : List Char} {c : Cursor}
    (h : c.At q p cs none) : c.Before cs := ⟨h.unread, h.fault⟩

namespace CursorM

variable {α β : Type}

/-- Before `cs`, the action succeeds with `a` and leaves `rest`. -/
def Yields (x : CursorM α) (cs : List Char) (a : α) (rest : List Char) : Prop :=
  ∀ c : Cursor, c.Before cs → ∃ c', c'.Before rest ∧ x c = .ok a c'

theorem Yields.pure (a : α) (cs : List Char) : Yields (Pure.pure a) cs a cs :=
  fun c h => ⟨c, h, rfl⟩

/-- Actions in turn yield in turn. -/
theorem Yields.bind {x : CursorM α} {f : α → CursorM β} {cs mid rest : List Char} {a : α} {b : β}
    (hx : Yields x cs a mid) (hf : Yields (f a) mid b rest) : Yields (x >>= f) cs b rest := by
  intro c hc
  obtain ⟨c₁, hc₁, hx⟩ := hx c hc
  obtain ⟨c₂, hc₂, hf⟩ := hf c₁ hc₁
  refine ⟨c₂, hc₂, ?_⟩
  simp only [Bind.bind, EStateM.bind, hx, hf]

theorem stuck_ne_ok {c : Cursor} {b : β} {c' : Cursor} : Cursor.stuck c ≠ .ok b c' := by
  simp [Cursor.stuck]

/-- A round that ends the loop is the result of the loop. -/
theorem Yields.loop_done {step : α → CursorM (α ⊕ β)} {cs rest : List Char} {a : α} {b : β}
    (h : Yields (step a) cs (.inr b) rest) : Yields (Cursor.loop step a) cs b rest := by
  intro c hc
  obtain ⟨c', hc', h⟩ := h c hc
  refine ⟨c', hc', ?_⟩
  unfold Cursor.loop SExpr.loop
  simp only [h]

/-- A round that goes on and has taken a character is followed by the loop on what is left. -/
theorem Yields.loop_more {step : α → CursorM (α ⊕ β)} {cs mid rest : List Char} {a a' : α} {b : β}
    (h : Yields (step a) cs (.inl a') mid) (hlt : mid.length < cs.length)
    (hrest : Yields (Cursor.loop step a') mid b rest) : Yields (Cursor.loop step a) cs b rest := by
  intro c hc
  obtain ⟨c₁, hc₁, h⟩ := h c hc
  obtain ⟨c₂, hc₂, hrest⟩ := hrest c₁ hc₁
  refine ⟨c₂, hc₂, ?_⟩
  -- The unread characters are the allowance, and the round has taken some of them.
  refine loop_ok_more (fun _ _ _ => stuck_ne_ok) Cursor.located h ?_ hrest
  rw [Cursor.length_located, Cursor.length_located, hc₁.unread, hc.unread]
  exact hlt

end CursorM

namespace Cursor

open CursorM

/-- A character is fetched if there is one, and the cursor still stands before it. -/
theorem fill_before {c : Cursor} {cs : List Char} (h : c.Before cs) :
    ∃ c', c'.Before cs ∧ c'.pending.head?.map Prod.fst = cs.head? ∧ fill c = .ok () c' := by
  obtain ⟨hu, hf⟩ := h
  unfold fill
  cases hp : c.pending with
  | cons q qs =>
    refine ⟨c, ⟨hu, hf⟩, ?_, rfl⟩
    rw [← hu, hp, Cursor.unread, hp]
    rfl
  | nil =>
    rw [Cursor.unread, hp, List.map_nil, List.nil_append] at hu
    obtain ⟨pending, ⟨located, broken⟩, nextPos⟩ := c
    obtain rfl : pending = [] := hp
    obtain rfl : broken = none := Option.map_eq_none_iff.mp hf
    -- Nothing is pending, so the next character, if any, comes from the source.
    cases located with
    | nil => exact ⟨{ source := { located := [] }, nextPos }, ⟨hu, rfl⟩, by rw [← hu]; rfl, rfl⟩
    | cons e located =>
      refine ⟨{ pending := [e], source := { located }, nextPos }, ⟨hu, rfl⟩, ?_, rfl⟩
      rw [← hu]
      rfl

/-- Where the cursor stands does not show in what is yielded, only in failures. -/
theorem yields_here {β : Type} {f : Pos → CursorM β} {cs rest : List Char} {b : β}
    (h : ∀ p, Yields (f p) cs b rest) : Yields (here >>= f) cs b rest :=
  fun c hc => h c.pos c hc

theorem yields_peek (cs : List Char) : Yields peek cs cs.head? cs := by
  intro c hc
  obtain ⟨c', hc', hh, h⟩ := fill_before hc
  refine ⟨c', hc', ?_⟩
  rw [peek_of_fill h, hh]

/-- To take a character yields the first one and leaves the others. -/
theorem yields_take? (cs : List Char) : Yields take? cs cs.head? cs.tail := by
  intro c hc
  obtain ⟨c', hc', hh, h⟩ := fill_before hc
  obtain ⟨hu, hf⟩ := hc'
  cases hp : c'.pending with
  | nil =>
    rw [hp] at hh
    have hcs : cs = [] := by
      cases cs with
      | nil => rfl
      | cons d ds => simp at hh
    refine ⟨c', ⟨by rw [hu, hcs]; rfl, hf⟩, ?_⟩
    rw [take?_of_fill_nil h hp, hcs]
    rfl
  | cons q qs =>
    rw [hp] at hh
    refine ⟨{ c' with pending := qs, nextPos := q.2.advance q.1 }, ⟨?_, hf⟩, ?_⟩
    · rw [← hu, Cursor.unread, Cursor.unread, hp]
      rfl
    · rw [take?_of_fill h hp, ← hh]
      rfl

theorem yields_take (awaited : Awaited) (d : Char) (cs : List Char) :
    Yields (take awaited) (d :: cs) d cs :=
  yields_here fun _ => (yields_take? (d :: cs)).bind (.pure d cs)

/-- Characters that are put back one by one are the next to be read. -/
theorem unread_foldr_putBack (text : List Char) (c : Cursor) :
    (text.foldr putBack c).unread = text ++ c.unread := by
  induction text with
  | nil => rfl
  | cons d text ih =>
    rw [List.foldr_cons, List.cons_append, ← ih]
    rfl

/-- To put characters back does not touch the source. -/
theorem source_foldr_putBack (text : List Char) (c : Cursor) :
    (text.foldr putBack c).source = c.source := by
  induction text with
  | nil => rfl
  | cons d text ih => exact ih

/-- A text that is pushed back is the next to be read. -/
theorem yields_pushBack (text cs : List Char) : Yields (pushBack text) cs () (text ++ cs) := by
  intro c hc
  refine ⟨text.foldr putBack c, ⟨?_, ?_⟩, rfl⟩
  · rw [unread_foldr_putBack, hc.unread]
  · rw [source_foldr_putBack, hc.fault]

end Cursor

/-! ## Sessions -/

namespace ReadM

variable {σ α β : Type}

/-- Before `cs` and with `m` remembered, the action succeeds with `a`, leaves `rest` and remembers
`m'`. Nothing else of the session changes. -/
def Yields (x : ReadM σ α) (m : σ) (cs : List Char) (a : α) (m' : σ) (rest : List Char) : Prop :=
  ∀ s : Session σ, s.memory = m → s.cursor.Before cs →
    ∃ c', c'.Before rest ∧ x s = .ok a { s with cursor := c', memory := m' }

theorem Yields.pure (a : α) (m : σ) (cs : List Char) : Yields (Pure.pure a) m cs a m cs := by
  intro s hm hs
  exact ⟨s.cursor, hs, by subst hm; rfl⟩

/-- Actions in turn yield in turn, each with the memory that the one before has left. -/
theorem Yields.bind {x : ReadM σ α} {f : α → ReadM σ β} {m m₁ m' : σ} {cs mid rest : List Char}
    {a : α} {b : β} (hx : Yields x m cs a m₁ mid) (hf : Yields (f a) m₁ mid b m' rest) :
    Yields (x >>= f) m cs b m' rest := by
  intro s hm hs
  obtain ⟨c₁, hc₁, hx⟩ := hx s hm hs
  obtain ⟨c₂, hc₂, hf⟩ := hf { s with cursor := c₁, memory := m₁ } rfl hc₁
  refine ⟨c₂, hc₂, ?_⟩
  simp only [Bind.bind, EStateM.bind, hx, hf]

/-- An action on the cursor leaves the memory alone. -/
theorem Yields.onCursor {x : CursorM α} {cs rest : List Char} {a : α}
    (hx : CursorM.Yields x cs a rest) (m : σ) : Yields (ReadM.onCursor x) m cs a m rest := by
  intro s hm hs
  obtain ⟨c', hc', hx⟩ := hx s.cursor hs
  refine ⟨c', hc', ?_⟩
  subst hm
  simp only [ReadM.onCursor, hx]

/-- An action on the memory leaves the cursor alone. -/
theorem Yields.onMemory (f : σ → α × σ) (m : σ) (cs : List Char) :
    Yields (ReadM.onMemory f) m cs (f m).1 (f m).2 cs := by
  intro s hm hs
  subst hm
  exact ⟨s.cursor, hs, rfl⟩

theorem Yields.here {f : Pos → ReadM σ β} {m m' : σ} {cs rest : List Char} {b : β}
    (h : ∀ p, Yields (f p) m cs b m' rest) :
    Yields ((ReadM.onCursor Cursor.here : ReadM σ Pos) >>= f) m cs b m' rest :=
  fun s hm hs => h s.cursor.pos s hm hs

/-- What an action yields is all it can do. -/
theorem Yields.unique {x : ReadM σ α} {m m' : σ} {cs rest : List Char} {a a' : α}
    {s s' : Session σ} (hx : Yields x m cs a m' rest) (hm : s.memory = m) (hs : s.cursor.Before cs)
    (h : x s = .ok a' s') :
    a' = a ∧ s'.cursor.Before rest ∧ s' = { s with cursor := s'.cursor, memory := m' } := by
  obtain ⟨c₁, hc₁, hx⟩ := hx s hm hs
  rw [hx] at h
  simp only [EStateM.Result.ok.injEq] at h
  obtain ⟨rfl, rfl⟩ := h
  exact ⟨rfl, hc₁, rfl⟩

/-- The frame around an action has no bearing on what it yields. -/
theorem Yields.within {x : ReadM σ α} {m m' : σ} {cs rest : List Char} {a : α}
    (hx : Yields x m cs a m' rest) (frame : Frame) :
    Yields (ReadM.within frame x) m cs a m' rest := by
  intro s hm hs
  obtain ⟨c', hc', hx⟩ := hx { s with context := frame :: s.context } hm hs
  refine ⟨c', hc', ?_⟩
  simp only [ReadM.within, hx, List.tail_cons]

theorem stuck_ne_ok {s : Session σ} {b : β} {s' : Session σ} :
    ReadM.onCursor Cursor.stuck s ≠ .ok b s' := by
  simp [ReadM.onCursor, Cursor.stuck]

/-- A round that ends the loop is the result of the loop. -/
theorem Yields.loop_done {step : α → ReadM σ (α ⊕ β)} {m m' : σ} {cs rest : List Char} {a : α}
    {b : β} (h : Yields (step a) m cs (.inr b) m' rest) :
    Yields (ReadM.loop step a) m cs b m' rest := by
  intro s hm hs
  obtain ⟨c', hc', h⟩ := h s hm hs
  refine ⟨c', hc', ?_⟩
  unfold ReadM.loop SExpr.loop
  simp only [h]

/-- A round that goes on and has taken a character is followed by the loop on what is left. -/
theorem Yields.loop_more {step : α → ReadM σ (α ⊕ β)} {m m₁ m' : σ} {cs mid rest : List Char}
    {a a' : α} {b : β} (h : Yields (step a) m cs (.inl a') m₁ mid) (hlt : mid.length < cs.length)
    (hrest : Yields (ReadM.loop step a') m₁ mid b m' rest) :
    Yields (ReadM.loop step a) m cs b m' rest := by
  intro s hm hs
  obtain ⟨c₁, hc₁, h⟩ := h s hm hs
  obtain ⟨c₂, hc₂, hrest⟩ := hrest { s with cursor := c₁, memory := m₁ } rfl hc₁
  refine ⟨c₂, hc₂, ?_⟩
  refine loop_ok_more (fun _ _ _ => stuck_ne_ok) (·.cursor.located) h ?_ hrest
  rw [Cursor.length_located, Cursor.length_located, hc₁.unread, hs.unread]
  exact hlt

end ReadM

end SExpr
