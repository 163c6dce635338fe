import SExpr.Proofs.Place
import SExpr.Proofs.Yields

/-!
# Two readings of one text

The same text may be read twice: once as it is, and once where it stands further down and something
follows. `Tracks` says how the two readings compare.

* Wherever the first one stops, successful or not, its cursor stands before the rest of the text and
  knows its place; nothing is lost and nothing is read twice.
* If nothing follows, the second one does the same: it returns what the first one returns, or fails
  for the same cause at the place that is further down.
* If something follows, the second one does what a successful first one does as long as `need` holds
  of the result and the rest. Where the first one has come to the end of its text this can only be
  so if it would have stopped there in any case.

The rules below follow the text of a reader, so that the three facts are shown together.
-/

namespace SExpr

/-- The failure, where the text stands so many lines further down. -/
def Failure.down (n : Nat) (e : Failure) : Failure := { e with pos := e.pos.down n }

/-- States that hold a cursor, on which they act. -/
class HasCursor (τ : Type) where
  cursor : τ → Cursor
  setCursor : τ → Cursor → τ
  cursor_setCursor : ∀ s c, cursor (setCursor s c) = c
  setCursor_cursor : ∀ s, setCursor s (cursor s) = s
  setCursor_setCursor : ∀ s c c', setCursor (setCursor s c) c' = setCursor s c'
  lift : {α : Type} → CursorM α → EStateM Failure τ α
  lift_eq : ∀ {α : Type} (x : CursorM α) (s : τ), lift x s =
    match x (cursor s) with
    | .ok a c => .ok a (setCursor s c)
    | .error e c => .error e (setCursor s c)

open HasCursor

/-- Repeats a step that takes characters until it is done. -/
def HasCursor.loop {τ α β : Type} [HasCursor τ] (step : β → EStateM Failure τ (β ⊕ α)) (b : β) :
    EStateM Failure τ α := fun s =>
  SExpr.loop step (lift Cursor.stuck) (cursor s).located b s

theorem HasCursor.loop_def {τ α β : Type} [HasCursor τ] (step : β → EStateM Failure τ (β ⊕ α))
    (b : β) (s : τ) :
    HasCursor.loop step b s = SExpr.loop step (lift Cursor.stuck) (cursor s).unread b s :=
  congrArg (· b s) (loop_of_length_eq (cursor s).length_located)

instance : HasCursor Cursor where
  cursor c := c
  setCursor _ c := c
  cursor_setCursor _ _ := rfl
  setCursor_cursor _ := rfl
  setCursor_setCursor _ _ _ := rfl
  lift x := x
  lift_eq x c := by cases x c <;> rfl

instance {σ : Type} : HasCursor (Session σ) where
  cursor := Session.cursor
  setCursor s cursor := { s with cursor }
  cursor_setCursor _ _ := rfl
  setCursor_cursor _ := rfl
  setCursor_setCursor _ _ _ := rfl
  lift := ReadM.onCursor
  lift_eq _ _ := rfl

/-! ## Twins -/

/-- Two sources of a text: the second one has it further down, and may go on after it. -/
structure Twin where
  /-- How many lines further down the text stands in the second source. -/
  lines : Nat := 0
  /-- How the first source breaks off after the text. -/
  cut : Option Fault := none
  /-- What follows in the second source. -/
  more : List Char := []
  /-- How the second source breaks off after that. -/
  fault : Option Fault := none

namespace Twin

/-- Both sources end with the text. -/
def Same (t : Twin) : Prop := t.cut = none ∧ t.more = [] ∧ t.fault = none

/-- A literal that has come to the rest ends before it, or at the latest before what follows. -/
def Stops (q : Char → Bool) (t : Twin) (rest : List Char) : Prop :=
  ∃ d ∈ rest ++ t.more.take 1, q d = false

/-- What the second reading may see where the first one sees the end: the end, or a character that
is outside of the class. -/
def Sees (q : Char → Bool) (t : Twin) (r : Option Char) : Prop :=
  ∀ d ∈ r, t.more.head? = some d ∧ q d = false

variable {q : Char → Bool} {t : Twin}

/-- What stops in a rest stops in all that comes before it. -/
theorem Stops.mono {rest mid : List Char} (h : t.Stops q rest) (hsuffix : rest <:+ mid) :
    t.Stops q mid := by
  obtain ⟨d, hd, hq⟩ := h
  obtain ⟨front, rfl⟩ := hsuffix
  refine ⟨d, ?_, hq⟩
  rw [List.append_assoc]
  exact List.mem_append_right front hd

theorem stops_of_mem {d : Char} {rest : List Char} (hd : d ∈ rest) (hq : q d = false) :
    t.Stops q rest :=
  ⟨d, List.mem_append_left _ hd, hq⟩

/-- If there is no rest, the stop is the first character that follows. -/
theorem Stops.exists_head (h : t.Stops q []) : ∃ d ds, t.more = d :: ds ∧ q d = false := by
  obtain ⟨d, hd, hq⟩ := h
  cases hmore : t.more with
  | nil => simp [hmore] at hd
  | cons e es =>
    rw [hmore, List.nil_append, List.take_succ_cons, List.take_zero, List.mem_singleton] at hd
    exact ⟨e, es, rfl, hd ▸ hq⟩

theorem sees_none : t.Sees q none := by simp [Sees]

/-- If a character is seen that follows, then something follows. -/
theorem Sees.not_same {d : Char} (h : t.Sees q (some d)) : ¬ t.Same := by
  intro hsame
  have hhead := (h d rfl).1
  rw [hsame.2.1] at hhead
  cases hhead

end Twin

/-! ## Outcomes -/

theorem bind_of_ok {τ α β : Type} {y : EStateM Failure τ β} {f : β → EStateM Failure τ α}
    {s s' : τ} {b : β} (h : y s = .ok b s') : (y >>= f) s = f b s' := by
  simp only [Bind.bind, EStateM.bind, h]

theorem bind_of_error {τ α β : Type} {y : EStateM Failure τ β} {f : β → EStateM Failure τ α}
    {s s' : τ} {e : Failure} (h : y s = .error e s') : (y >>= f) s = .error e s' := by
  simp only [Bind.bind, EStateM.bind, h]

/-- A loop is a round and, if that is not the end, the loop again with less of its allowance. -/
theorem loop_eq_bind {τ α β γ : Type} (step : β → EStateM Failure τ (β ⊕ α))
    (stuck : EStateM Failure τ α) (xs : List γ) (b : β) :
    loop step stuck xs b = step b >>= fun
      | .inr a => pure a
      | .inl b =>
        match xs with
        | [] => stuck
        | _ :: xs => loop step stuck xs b := by
  funext s
  conv => lhs; unfold loop
  cases hstep : step b s with
  | error e s' => rw [bind_of_error hstep]
  | ok r s' =>
    rw [bind_of_ok hstep]
    cases r with
    | inr a => rfl
    | inl b' => cases xs <;> rfl

section

variable {τ α β : Type} [HasCursor τ] {q : Char → Bool} {t : Twin} {p : Pos}
  {done cs : List Char} {need post : α → List Char → Prop}

/-- How the ends of the two readings of `cs` from `p` on compare. After a success of the first one,
`post` holds of its result and of the rest. -/
def Outcome (q : Char → Bool) (t : Twin) (p : Pos) (cs : List Char)
    (need post : α → List Char → Prop) :
    EStateM.Result Failure τ α → EStateM.Result Failure τ α → Prop
  | .ok a s, second => ∃ done rest, cs = done ++ rest ∧
      (cursor s).At q (p.advanceAll done) rest t.cut ∧ post a rest ∧
      (t.Same ∨ t.cut = none ∧ need a rest → ∃ c, second = .ok a (setCursor s c) ∧
        c.At q ((p.advanceAll done).down t.lines) (rest ++ t.more) t.fault)
  | .error e s, second => ∃ done rest cut, cs = done ++ rest ∧
      (cursor s).At q (p.advanceAll done) rest cut ∧
      (t.Same → ∃ c, second = .error (e.down t.lines) (setCursor s c) ∧
        c.At q ((p.advanceAll done).down t.lines) rest none)

namespace Outcome

variable {r₁ r₂ r₂' : EStateM.Result Failure τ α}

/-- What may be assumed and what is to be shown can be changed. -/
theorem weaken {need' post' : α → List Char → Prop} (h : Outcome q t p cs need post r₁ r₂)
    (hpost : ∀ a rest, rest <:+ cs → post a rest → post' a rest)
    (hneed : ∀ a rest, rest <:+ cs → post a rest → need' a rest → need a rest) :
    Outcome q t p cs need' post' r₁ r₂ := by
  cases r₁ with
  | error e s => exact h
  | ok a s =>
    obtain ⟨front, rest, rfl, hat, hp, hsecond⟩ := h
    have hsuffix : rest <:+ front ++ rest := List.suffix_append front rest
    refine ⟨front, rest, rfl, hat, hpost a rest hsuffix hp, fun hgo => hsecond ?_⟩
    exact hgo.imp_right (And.imp_right (hneed a rest hsuffix hp))

/-- What was read before can be counted in. -/
theorem after (h : Outcome q t (p.advanceAll done) cs need post r₁ r₂) :
    Outcome q t p (done ++ cs) need post r₁ r₂ := by
  cases r₁ with
  | error e s =>
    obtain ⟨front, rest, cut, rfl, hat, hsecond⟩ := h
    rw [← Pos.advanceAll_append] at hat hsecond
    exact ⟨done ++ front, rest, cut, (List.append_assoc ..).symm, hat, hsecond⟩
  | ok a s =>
    obtain ⟨front, rest, rfl, hat, hp, hsecond⟩ := h
    rw [← Pos.advanceAll_append] at hat hsecond
    exact ⟨done ++ front, rest, (List.append_assoc ..).symm, hat, hp, hsecond⟩

/-- Where the first reading does not have what it needs, the second one may do what it likes. -/
theorem of_not_need (h : Outcome q t p cs need post r₁ r₂) (hsame : ¬ t.Same)
    (hneed : ∀ a rest, rest <:+ cs → post a rest → t.cut = none → ¬ need a rest) :
    Outcome q t p cs need post r₁ r₂' := by
  cases r₁ with
  | error e s =>
    obtain ⟨front, rest, cut, rfl, hat, -⟩ := h
    exact ⟨front, rest, cut, rfl, hat, fun hs => absurd hs hsame⟩
  | ok a s =>
    obtain ⟨front, rest, rfl, hat, hp, -⟩ := h
    refine ⟨front, rest, rfl, hat, hp, fun hgo => ?_⟩
    rcases hgo with hs | ⟨hcut, hn⟩
    · exact absurd hs hsame
    · exact absurd hn (hneed a rest (List.suffix_append front rest) hp hcut)

end Outcome

/-- The two readings compare as they should, where `done` has been read since `p` and `cs` comes
next. -/
def Tracks (q : Char → Bool) (t : Twin) (p : Pos) (done cs : List Char)
    (x₁ x₂ : EStateM Failure τ α) (need post : α → List Char → Prop) : Prop :=
  ∀ s c, (cursor s).At q (p.advanceAll done) cs t.cut →
    c.At q ((p.advanceAll done).down t.lines) (cs ++ t.more) t.fault →
    Outcome q t p (done ++ cs) need post (x₁ s) (x₂ (setCursor s c))

namespace Tracks

variable {x₁ x₂ : EStateM Failure τ α}

/-- More may be said about less, as far as it is said about what the actions leave. -/
theorem weaken {need' post' : α → List Char → Prop} (h : Tracks q t p [] cs x₁ x₂ need post)
    (hpost : ∀ a rest, rest <:+ cs → post a rest → post' a rest)
    (hneed : ∀ a rest, rest <:+ cs → post a rest → need' a rest → need a rest) :
    Tracks q t p [] cs x₁ x₂ need' post' :=
  fun s c hs hc => (h s c hs hc).weaken hpost hneed

/-- The rule from where the text has been taken to, for an action that begins there. -/
theorem after (h : Tracks q t (p.advanceAll done) [] cs x₁ x₂ need post) :
    Tracks q t p done cs x₁ x₂ need post :=
  fun s c hs hc => (h s c hs hc).after

/-- What is left is a rest of what there was. -/
theorem suffix (h : Tracks q t p [] cs x₁ x₂ need post) :
    Tracks q t p [] cs x₁ x₂ need fun a rest => post a rest ∧ rest <:+ cs :=
  h.weaken (fun _ _ hsuffix hp => ⟨hp, hsuffix⟩) fun _ _ _ _ hn => hn

/-- Where a reading leaves off that is compared with itself. -/
theorem of_ok {x : EStateM Failure τ α} {fault : Option Fault} {s s' : τ} {a : α}
    (hx : Tracks q { cut := fault } p [] cs x x need post) (hs : (cursor s).At q p cs fault)
    (h : x s = .ok a s') : ∃ front rest, cs = front ++ rest ∧
      (cursor s').At q (p.advanceAll front) rest fault ∧ post a rest := by
  obtain ⟨c, hc⟩ := Cursor.exists_at q p cs none
  have hx : Outcome q { cut := fault } p cs need post (x s) (x (setCursor s c)) := by
    refine hx s c hs ?_
    rw [List.append_nil]
    exact hc
  rw [h] at hx
  obtain ⟨front, rest, hcs, hat, hpost, -⟩ := hx
  exact ⟨front, rest, hcs, hat, hpost⟩

/-! ## Rules -/

theorem pure {a : α} (h : post a cs) :
    Tracks q t p done cs (Pure.pure a : EStateM Failure τ α) (Pure.pure a) need post :=
  fun _ c hs hc => ⟨done, cs, rfl, hs, h, fun _ => ⟨c, rfl, hc⟩⟩

/-- A failure at a place of the text is the same one further down. -/
theorem throw {cause : Cause} {place : Pos} :
    Tracks q t p done cs (MonadExcept.throw (⟨cause, place⟩ : Failure) : EStateM Failure τ α)
      (MonadExcept.throw (⟨cause, place.down t.lines⟩ : Failure)) need post := by
  intro s c hs hc
  refine ⟨done, cs, t.cut, rfl, hs, fun hsame => ⟨c, rfl, ?_⟩⟩
  rw [hsame.2.1, hsame.2.2, List.append_nil] at hc
  exact hc

/-- Where the first reading is done and the second one has more before it. -/
theorem pure_of_not_need {a : α} (hsame : ¬ t.Same) (hneed : ¬ need a cs) (h : post a cs) :
    Tracks q t p done cs (Pure.pure a : EStateM Failure τ α) x₂ need post := by
  intro s c hs hc
  refine ⟨done, cs, rfl, hs, h, fun hgo => ?_⟩
  rcases hgo with hs | ⟨-, hn⟩
  · exact absurd hs hsame
  · exact absurd hn hneed

/-- **Sequences.** What the second part needs has to give what the first part needs. The second part
may put back what the first part has read. -/
theorem seqBack {y₁ y₂ : EStateM Failure τ β} {f₁ f₂ : β → EStateM Failure τ α}
    {needY postY : β → List Char → Prop} {F : β → List Char → α → List Char → Prop}
    (hy : Tracks q t (p.advanceAll done) [] cs y₁ y₂ needY postY)
    (hf : ∀ b front mid, cs = front ++ mid → postY b mid →
      Tracks q t (p.advanceAll done) front mid (f₁ b) (f₂ b) need (F b mid))
    (hpost : ∀ b mid a rest, postY b mid → mid <:+ cs → F b mid a rest → post a rest)
    (hneed : ∀ b mid a rest, postY b mid → F b mid a rest → need a rest → needY b mid) :
    Tracks q t p done cs (y₁ >>= f₁) (y₂ >>= f₂) need post := by
  refine .after fun s c hs hc => ?_
  have hy := hy s c hs hc
  cases hres : y₁ s with
  | error e s' =>
    rw [hres] at hy
    rw [bind_of_error hres]
    obtain ⟨front, rest, cut, hcs, hat, hsecond⟩ := hy
    refine ⟨front, rest, cut, hcs, hat, fun hsame => ?_⟩
    obtain ⟨c', hy₂, hc'⟩ := hsecond hsame
    exact ⟨c', bind_of_error hy₂, hc'⟩
  | ok b s' =>
    rw [hres] at hy
    rw [bind_of_ok hres]
    obtain ⟨front, mid, hcs, hat, hmid, hsecond⟩ := hy
    have hf := hf b front mid hcs hmid
    have hweaken {r₂ : EStateM.Result Failure τ α}
        (h : Outcome q t (p.advanceAll done) (front ++ mid) need (F b mid) (f₁ b s') r₂) :
        Outcome q t (p.advanceAll done) ([] ++ cs) need post (f₁ b s') r₂ := by
      rw [hcs]
      refine h.weaken (fun a rest _ hp => ?_) fun _ _ _ _ hn => hn
      exact hpost b mid a rest hmid ⟨front, hcs.symm⟩ hp
    by_cases hgo : t.Same ∨ t.cut = none ∧ needY b mid
    · obtain ⟨c', hy₂, hc'⟩ := hsecond hgo
      rw [bind_of_ok hy₂]
      exact hweaken (hf s' c' hat hc')
    · -- The second part cannot have what it needs; all there is to say is about the first reading.
      obtain ⟨c', hc'⟩ := Cursor.exists_at q (((p.advanceAll done).advanceAll front).down t.lines)
        (mid ++ t.more) t.fault
      refine hweaken ((hf s' c' hat hc').of_not_need (fun h => hgo (.inl h)) ?_)
      intro a rest _ hp hcut hn
      exact hgo (.inr ⟨hcut, hneed b mid a rest hmid hp hn⟩)

/-- Sequences where nothing is put back. -/
theorem seq {y₁ y₂ : EStateM Failure τ β} {f₁ f₂ : β → EStateM Failure τ α}
    {needY postY : β → List Char → Prop} {F : β → List Char → α → List Char → Prop}
    (hy : Tracks q t (p.advanceAll done) [] cs y₁ y₂ needY postY)
    (hf : ∀ b front mid, cs = front ++ mid → postY b mid →
      Tracks q t ((p.advanceAll done).advanceAll front) [] mid (f₁ b) (f₂ b) need (F b mid))
    (hpost : ∀ b mid a rest, postY b mid → mid <:+ cs → rest <:+ mid → F b mid a rest →
      post a rest)
    (hneed : ∀ b mid a rest, postY b mid → rest <:+ mid → F b mid a rest → need a rest →
      needY b mid) :
    Tracks q t p done cs (y₁ >>= f₁) (y₂ >>= f₂) need post :=
  hy.seqBack (fun b front mid hcs hmid => (hf b front mid hcs hmid).suffix.after)
    (fun b mid a rest hmid hcs hp => hpost b mid a rest hmid hcs hp.2 hp.1)
    fun b mid a rest hmid hp => hneed b mid a rest hmid hp.2 hp.1

/-- Sequences where what is ensured does not depend on where the second part begins. -/
theorem bind {y₁ y₂ : EStateM Failure τ β} {f₁ f₂ : β → EStateM Failure τ α}
    {needY postY : β → List Char → Prop}
    (hy : Tracks q t (p.advanceAll done) [] cs y₁ y₂ needY postY)
    (hf : ∀ b front mid, cs = front ++ mid → postY b mid →
      Tracks q t ((p.advanceAll done).advanceAll front) [] mid (f₁ b) (f₂ b) need post)
    (hneed : ∀ b mid a rest, postY b mid → rest <:+ mid → post a rest → need a rest →
      needY b mid) :
    Tracks q t p done cs (y₁ >>= f₁) (y₂ >>= f₂) need post :=
  hy.seq hf (fun _ _ _ _ _ _ _ hp => hp) hneed

theorem lift_of_ok {x : CursorM α} {s : τ} {a : α} {c : Cursor} (h : x (cursor s) = .ok a c) :
    (lift x : EStateM Failure τ α) s = .ok a (setCursor s c) := by
  rw [lift_eq, h]

/-- An action on the cursor that fails does so in a session. -/
theorem lift_of_error {x : CursorM α} {s : τ} {e : Failure} {c : Cursor}
    (h : x (cursor s) = .error e c) :
    (lift x : EStateM Failure τ α) s = .error e (setCursor s c) := by
  rw [lift_eq, h]

/-- It succeeds likewise with the cursor of the other reading. -/
theorem lift_setCursor_of_ok {x : CursorM α} {s : τ} {a : α} {c c' : Cursor}
    (h : x c = .ok a c') :
    (lift x : EStateM Failure τ α) (setCursor s c) = .ok a (setCursor s c') := by
  rw [lift_of_ok (c := c') (by rw [cursor_setCursor, h]), setCursor_setCursor]

theorem lift_setCursor_of_error {x : CursorM α} {s : τ} {e : Failure} {c c' : Cursor}
    (h : x c = .error e c') :
    (lift x : EStateM Failure τ α) (setCursor s c) = .error e (setCursor s c') := by
  rw [lift_of_error (c := c') (by rw [cursor_setCursor, h]), setCursor_setCursor]

/-- An action on the cursor alone. -/
theorem onCursor {x₁ x₂ : CursorM α} (h : Tracks q t p done cs x₁ x₂ need post) :
    Tracks q t p done cs (lift x₁ : EStateM Failure τ α) (lift x₂) need post := by
  intro s c hs hc
  have h := h (cursor s) c hs hc
  cases hres : x₁ (cursor s) with
  | error e c₁ =>
    rw [hres] at h
    rw [lift_of_error hres]
    obtain ⟨front, rest, cut, hcs, hat, hsecond⟩ := h
    refine ⟨front, rest, cut, hcs, by rwa [cursor_setCursor], fun hsame => ?_⟩
    obtain ⟨c₂, hx₂, hc₂⟩ := hsecond hsame
    have hx₂ : x₂ c = .error (e.down t.lines) c₂ := hx₂
    exact ⟨c₂, by rw [lift_setCursor_of_error hx₂, setCursor_setCursor], hc₂⟩
  | ok a c₁ =>
    rw [hres] at h
    rw [lift_of_ok hres]
    obtain ⟨front, rest, hcs, hat, hp, hsecond⟩ := h
    refine ⟨front, rest, hcs, by rwa [cursor_setCursor], hp, fun hgo => ?_⟩
    obtain ⟨c₂, hx₂, hc₂⟩ := hsecond hgo
    have hx₂ : x₂ c = .ok a c₂ := hx₂
    exact ⟨c₂, by rw [lift_setCursor_of_ok hx₂, setCursor_setCursor], hc₂⟩

/-- The place is known. -/
theorem here {f₁ f₂ : Pos → EStateM Failure τ α}
    (hf : Tracks q t p done cs (f₁ (p.advanceAll done)) (f₂ ((p.advanceAll done).down t.lines)) need
      post) :
    Tracks q t p done cs (lift Cursor.here >>= f₁) (lift Cursor.here >>= f₂) need post := by
  intro s c hs hc
  have hhere₁ : (lift Cursor.here : EStateM Failure τ Pos) s = .ok (p.advanceAll done) s := by
    rw [lift_of_ok (show Cursor.here (cursor s) = .ok (cursor s).pos (cursor s) from rfl), hs.pos,
      setCursor_cursor]
  have hhere₂ := lift_setCursor_of_ok (s := s) (show Cursor.here c = .ok c.pos c from rfl)
  rw [bind_of_ok hhere₁, bind_of_ok hhere₂, hc.pos]
  exact hf s c hs hc

/-- **Looking ahead.** At the end of the text the second reading may see what follows; that must not
make a difference where the first one has what it needs. -/
theorem peek {f₁ f₂ : Option Char → EStateM Failure τ α}
    (hneed : cs = [] → ∀ a rest, rest <:+ done → post a rest → need a rest → t.Stops q [])
    (hsome : ∀ d ds, cs = d :: ds →
      Tracks q t p done (d :: ds) (f₁ (some d)) (f₂ (some d)) need post)
    (hnone : cs = [] → ∀ r, t.Sees q r → Tracks q t p done [] (f₁ none) (f₂ r) need post) :
    Tracks q t p done cs (lift Cursor.peek >>= f₁) (lift Cursor.peek >>= f₂) need post := by
  intro s c hs hc
  cases cs with
  | cons d ds =>
    obtain ⟨c₁, hpeek₁, hc₁⟩ := Cursor.peek_at_cons hs
    obtain ⟨c₂, hpeek₂, hc₂⟩ := Cursor.peek_at_cons hc
    rw [bind_of_ok (lift_of_ok hpeek₁), bind_of_ok (lift_setCursor_of_ok hpeek₂),
      ← setCursor_setCursor s c₁ c₂]
    exact hsome d ds rfl _ c₂ (by rwa [cursor_setCursor]) hc₂
  | nil =>
    cases hcut : t.cut with
    | some f =>
      -- The first reading fails where its source breaks off.
      rw [hcut] at hs
      obtain ⟨c₁, hpeek₁, hc₁⟩ := Cursor.peek_at_fault hs
      rw [bind_of_error (lift_of_error hpeek₁)]
      refine ⟨done, [], none, rfl, by rwa [cursor_setCursor], fun hsame => ?_⟩
      rw [hsame.1] at hcut
      cases hcut
    | none =>
      have hnone := hnone rfl
      have hfirst := hnone none Twin.sees_none s
      rw [hcut] at hs hfirst
      rw [bind_of_ok (lift_of_ok (Cursor.peek_at_nil hs)), setCursor_cursor]
      by_cases hsame : t.Same
      · have hc' := hc
        rw [hsame.2.1, hsame.2.2] at hc'
        rw [bind_of_ok (lift_setCursor_of_ok (Cursor.peek_at_nil hc'))]
        exact hfirst c hs hc
      · by_cases hstops : t.Stops q []
        · -- The second reading sees what follows; that is as good as the end.
          obtain ⟨d, ds, hmore, hd⟩ := hstops.exists_head
          have hc' := hc
          rw [List.nil_append, hmore] at hc'
          obtain ⟨c₂, hpeek₂, hc₂⟩ := Cursor.peek_at_cons hc'
          rw [bind_of_ok (lift_setCursor_of_ok hpeek₂)]
          refine hnone (some d) ?_ s c₂ (by rwa [hcut]) ?_
          · intro e he
            cases he
            exact ⟨by rw [hmore]; rfl, hd⟩
          · rw [List.nil_append, hmore]
            exact hc₂
        · refine (hfirst c hs hc).of_not_need hsame fun a rest hsuffix hp _ hn => ?_
          rw [List.append_nil] at hsuffix
          exact hstops (hneed rfl a rest hsuffix hp hn)

theorem advance_down_eq (p : Pos) (n : Nat) (done : List Char) (d : Char) :
    ((p.advanceAll done).down n).advance d = (p.advanceAll (done ++ [d])).down n := by
  rw [Pos.advance_down, Pos.advanceAll_append]
  rfl

/-- **Taking a character.** At the end of the text nothing can be said of the second reading, unless
it ends there too. -/
theorem take? {f₁ f₂ : Option Char → EStateM Failure τ α}
    (hsome : ∀ d ds, cs = d :: ds →
      Tracks q t p (done ++ [d]) ds (f₁ (some d)) (f₂ (some d)) need post)
    (hnone : cs = [] → Tracks q t p done [] (f₁ none) (f₂ none) need
      fun a rest => post a rest ∧ ¬ need a rest) :
    Tracks q t p done cs (lift Cursor.take? >>= f₁) (lift Cursor.take? >>= f₂) need post := by
  intro s c hs hc
  cases cs with
  | cons d ds =>
    obtain ⟨c₁, htake₁, hc₁, -⟩ := Cursor.take?_at_cons hs
    obtain ⟨c₂, htake₂, hc₂, -⟩ := Cursor.take?_at_cons hc
    rw [bind_of_ok (lift_of_ok htake₁), bind_of_ok (lift_setCursor_of_ok htake₂),
      ← setCursor_setCursor s c₁ c₂, List.append_cons]
    rw [advance_down_eq] at hc₂
    refine hsome d ds rfl _ c₂ ?_ hc₂
    rwa [cursor_setCursor, Pos.advanceAll_append]
  | nil =>
    -- The text has come to an end. It breaks off there, or something may follow in the second
    -- reading.
    cases hcut : t.cut with
    | some f =>
      rw [hcut] at hs
      obtain ⟨c₁, htake₁, hc₁⟩ := Cursor.take?_at_fault hs
      rw [bind_of_error (lift_of_error htake₁)]
      refine ⟨done, [], none, rfl, by rwa [cursor_setCursor], fun hsame => ?_⟩
      rw [hsame.1] at hcut
      cases hcut
    | none =>
      have hfirst := hnone rfl s c hs hc
      rw [hcut] at hs
      rw [bind_of_ok (lift_of_ok (Cursor.take?_at_nil hs)), setCursor_cursor]
      by_cases hsame : t.Same
      · rw [hsame.2.1, hsame.2.2] at hc
        rw [bind_of_ok (lift_setCursor_of_ok (Cursor.take?_at_nil hc))]
        exact hfirst.weaken (fun _ _ _ h => h.1) fun _ _ _ _ h => h
      · refine (hfirst.of_not_need hsame fun _ _ _ h _ => h.2).weaken (fun _ _ _ h => h.1) ?_
        exact fun _ _ _ _ h => h

/-- Taking a character that has to be there. -/
theorem take {f₁ f₂ : Char → EStateM Failure τ α} {awaited : Awaited}
    (hsome : ∀ d ds, cs = d :: ds → Tracks q t p (done ++ [d]) ds (f₁ d) (f₂ d) need post) :
    Tracks q t p done cs (lift (Cursor.take awaited) >>= f₁) (lift (Cursor.take awaited) >>= f₂)
      need post := by
  intro s c hs hc
  cases cs with
  | cons d ds =>
    obtain ⟨c₁, htake₁, hc₁⟩ := Cursor.take_at_cons awaited hs
    obtain ⟨c₂, htake₂, hc₂⟩ := Cursor.take_at_cons awaited hc
    rw [bind_of_ok (lift_of_ok htake₁), bind_of_ok (lift_setCursor_of_ok htake₂),
      ← setCursor_setCursor s c₁ c₂, List.append_cons]
    rw [advance_down_eq] at hc₂
    refine hsome d ds rfl _ c₂ ?_ hc₂
    rwa [cursor_setCursor, Pos.advanceAll_append]
  | nil =>
    cases hcut : t.cut with
    | some f =>
      rw [hcut] at hs
      obtain ⟨c₁, htake₁, hc₁⟩ := Cursor.take_at_fault awaited hs
      rw [bind_of_error (lift_of_error htake₁)]
      refine ⟨done, [], none, rfl, by rwa [cursor_setCursor], fun hsame => ?_⟩
      rw [hsame.1] at hcut
      cases hcut
    | none =>
      rw [hcut] at hs
      rw [bind_of_error (lift_of_error (Cursor.take_at_nil awaited hs)), setCursor_cursor]
      refine ⟨done, [], none, rfl, hs, fun hsame => ?_⟩
      rw [hsame.2.1, hsame.2.2] at hc
      exact ⟨c, bind_of_error (lift_setCursor_of_error (Cursor.take_at_nil awaited hc)), hc⟩

/-- **Putting back** what was read. -/
theorem pushBack {text : List Char} {f₁ f₂ : Unit → EStateM Failure τ α}
    (htext : ∀ d ∈ text, q d = true ∧ d ≠ '\n')
    (hf : Tracks q t p done (text ++ cs) (f₁ ()) (f₂ ()) need post) :
    Tracks q t p (done ++ text) cs (lift (Cursor.pushBack text) >>= f₁)
      (lift (Cursor.pushBack text) >>= f₂) need post := by
  intro s c hs hc
  rw [Pos.advanceAll_append] at hs hc
  rw [← Pos.advanceAll_down] at hc
  obtain ⟨c₁, hpush₁, hc₁⟩ := Cursor.pushBack_at htext hs
  obtain ⟨c₂, hpush₂, hc₂⟩ := Cursor.pushBack_at htext hc
  rw [bind_of_ok (lift_of_ok hpush₁), bind_of_ok (lift_setCursor_of_ok hpush₂),
    ← setCursor_setCursor s c₁ c₂, List.append_assoc]
  refine hf _ c₂ (by rwa [cursor_setCursor]) ?_
  rw [List.append_assoc]
  exact hc₂

/-- What a loop ensures after a round, from where that has stopped. -/
def Continues (P : β → List Char → α → List Char → Prop) :
    β ⊕ α → List Char → α → List Char → Prop
  | .inr a, mid => fun a' rest => a' = a ∧ rest = mid
  | .inl b, mid => P b mid

/-- What is kept by the rounds of a loop is kept by the loop, if it is by a round and by what comes
after it. -/
theorem continues_post {b : β} {R : β → List Char → β ⊕ α → List Char → Prop}
    {P : β → List Char → α → List Char → Prop}
    (hdone : ∀ b cs a rest, R b cs (.inr a) rest → P b cs a rest)
    (hmore : ∀ b cs b' mid a rest, R b cs (.inl b') mid → mid <:+ cs → rest <:+ mid →
      P b' mid a rest → P b cs a rest)
    (r : β ⊕ α) (mid : List Char) (a : α) (rest : List Char) (hr : R b cs r mid)
    (hmid : mid <:+ cs) (hrest : rest <:+ mid) (h : Continues P r mid a rest) :
    P b cs a rest := by
  cases r with
  | inr a' =>
    obtain ⟨rfl, rfl⟩ := h
    exact hdone b cs a rest hr
  | inl b' => exact hmore b cs b' mid a rest hr hmid hrest h

/-- What a loop needs is needed by the rounds, if each hands it on. -/
theorem continues_need {b : β} {needR : β ⊕ α → List Char → Prop}
    {R : β → List Char → β ⊕ α → List Char → Prop}
    {P : β → List Char → α → List Char → Prop}
    (hneedDone : ∀ a rest, need a rest → needR (.inr a) rest)
    (hneedMore : ∀ b mid a rest, P b mid a rest → rest <:+ mid → need a rest →
      needR (.inl b) mid)
    (r : β ⊕ α) (mid : List Char) (a : α) (rest : List Char) (_ : R b cs r mid)
    (hrest : rest <:+ mid) (h : Continues P r mid a rest) (hn : need a rest) :
    needR r mid := by
  cases r with
  | inr a' =>
    obtain ⟨rfl, rfl⟩ := h
    exact hneedDone a rest hn
  | inl b' => exact hneedMore b' mid a rest h hrest hn

/-- Rounds within a given allowance, of which the second reading has at least as much. -/
theorem rounds {step₁ step₂ : β → EStateM Failure τ (β ⊕ α)} {stuck₁ stuck₂ : EStateM Failure τ α}
    {needR : β ⊕ α → List Char → Prop} {R : β → List Char → β ⊕ α → List Char → Prop}
    {P : β → List Char → α → List Char → Prop}
    (hstuck : ∀ p cs, Tracks q t p [] cs stuck₁ stuck₂ need fun _ _ => False)
    (hstep : ∀ b p cs, Tracks q t p [] cs (step₁ b) (step₂ b) needR (R b cs))
    (hdone : ∀ b cs a rest, R b cs (.inr a) rest → P b cs a rest)
    (hmore : ∀ b cs b' mid a rest, R b cs (.inl b') mid → mid <:+ cs → rest <:+ mid →
      P b' mid a rest → P b cs a rest)
    (hneedDone : ∀ a rest, need a rest → needR (.inr a) rest)
    (hneedMore : ∀ b mid a rest, P b mid a rest → rest <:+ mid → need a rest →
      needR (.inl b) mid)
    {xs ys : List Char} (hle : xs.length ≤ ys.length) (hsame : t.Same → xs.length = ys.length)
    (b : β) :
    Tracks q t p [] cs (SExpr.loop step₁ stuck₁ xs b) (SExpr.loop step₂ stuck₂ ys b) need
      (P b cs) := by
  -- The induction is on the allowance of the first reading; the second one has at least as much.
  induction xs generalizing ys b p cs with
  | nil =>
    rw [loop_eq_bind step₁, loop_eq_bind step₂]
    refine seq (F := Continues P) (hstep b p cs) (fun r front mid hcs hr => ?_)
      (continues_post hdone hmore) (continues_need hneedDone hneedMore)
    cases r with
    | inr a => exact .pure ⟨rfl, rfl⟩
    | inl b' =>
      have hfalse : ∀ a rest, rest <:+ mid → False → P b' mid a rest := fun _ _ _ h => h.elim
      cases ys with
      | nil => exact (hstuck _ mid).weaken hfalse fun _ _ _ h => h.elim
      | cons y ys =>
        have hnot : ¬ t.Same := fun h => by simpa using hsame h
        intro s c hs hc
        have hfirst := hstuck _ mid s c hs hc
        exact (hfirst.of_not_need hnot fun _ _ _ h => h.elim).weaken hfalse fun _ _ _ h => h.elim
  | cons x xs ih =>
    cases ys with
    | nil => simp at hle
    | cons y ys =>
      rw [loop_eq_bind step₁, loop_eq_bind step₂]
      refine seq (F := Continues P) (hstep b p cs) (fun r front mid hcs hr => ?_)
        (continues_post hdone hmore) (continues_need hneedDone hneedMore)
      cases r with
      | inr a => exact .pure ⟨rfl, rfl⟩
      | inl b' =>
        rw [List.length_cons, List.length_cons] at hle hsame
        exact ih (by omega) (fun h => by have := hsame h; omega) b'

/-- A loop that gives up does so in both readings. -/
theorem stuck {post : α → List Char → Prop} :
    Tracks q t p [] cs (lift Cursor.stuck : EStateM Failure τ α) (lift Cursor.stuck) need post := by
  refine .onCursor fun s c hs hc => ?_
  refine ⟨[], cs, t.cut, rfl, hs, fun hsame => ⟨c, ?_, ?_⟩⟩
  · show EStateM.Result.error (⟨.endOfInput .value, c.pos⟩ : Failure) c
      = .error ⟨.endOfInput .value, (Cursor.pos s).down t.lines⟩ c
    rw [hc.pos, show Cursor.pos s = _ from hs.pos]
  · rw [hsame.2.1, hsame.2.2, List.append_nil] at hc
    exact hc

/-- **Loops.** What each round needs and ensures is told from what is left when the loop ends. -/
theorem loop {step₁ step₂ : β → EStateM Failure τ (β ⊕ α)}
    {needR : β ⊕ α → List Char → Prop} {R : β → List Char → β ⊕ α → List Char → Prop}
    {P : β → List Char → α → List Char → Prop}
    (hstep : ∀ b p cs, Tracks q t p [] cs (step₁ b) (step₂ b) needR (R b cs))
    (hdone : ∀ b cs a rest, R b cs (.inr a) rest → P b cs a rest)
    (hmore : ∀ b cs b' mid a rest, R b cs (.inl b') mid → mid <:+ cs → rest <:+ mid →
      P b' mid a rest → P b cs a rest)
    (hneedDone : ∀ a rest, need a rest → needR (.inr a) rest)
    (hneedMore : ∀ b mid a rest, P b mid a rest → rest <:+ mid → need a rest →
      needR (.inl b) mid) (b : β) :
    Tracks q t p [] cs (HasCursor.loop step₁ b) (HasCursor.loop step₂ b) need (P b cs) := by
  intro s c hs hc
  rw [HasCursor.loop_def, HasCursor.loop_def, cursor_setCursor, hs.unread, hc.unread]
  refine rounds (fun _ _ => stuck) hstep hdone hmore hneedDone hneedMore ?_ (fun hsame => ?_) b s c
    hs hc
  · rw [List.length_append]
    omega
  · rw [hsame.2.1, List.append_nil]

end Tracks

/-- A round that goes on has taken characters. -/
def Shrinks (cs : List Char) (r : β ⊕ α) (rest : List Char) : Prop :=
  ∀ b, r = .inl b → rest.length < cs.length

namespace HasCursor

variable {step : β → EStateM Failure τ (β ⊕ α)} {b b' : β} {s s' : τ}

theorem loop_of_error {e : Failure} (h : step b s = .error e s') : loop step b s = .error e s' := by
  unfold loop SExpr.loop
  rw [h]

theorem loop_of_done {a : α} (h : step b s = .ok (.inr a) s') : loop step b s = .ok a s' := by
  unfold loop SExpr.loop
  rw [h]

/-- **A loop that goes on** is the same loop again, from where the round has stopped. -/
theorem loop_of_more {fault : Option Fault} {needR : β ⊕ α → List Char → Prop}
    {R : β → List Char → β ⊕ α → List Char → Prop}
    (hstep : ∀ b p cs, Tracks q { cut := fault } p [] cs (step b) (step b) needR (R b cs))
    (hshrinks : ∀ b cs r rest, R b cs r rest → Shrinks cs r rest)
    (hs : (cursor s).At q p cs fault) (h : step b s = .ok (.inl b') s') :
    loop step b s = loop step b' s' := by
  have htakes : ∀ b s b' s', (∃ p cs, (cursor s).At q p cs fault) → step b s = .ok (.inl b') s' →
      (∃ p cs, (cursor s').At q p cs fault) ∧
        (cursor s').located.length < (cursor s).located.length := by
    rintro b s b' s' ⟨p, cs, hs⟩ h
    obtain ⟨front, rest, -, hs', hr⟩ := (hstep b p cs).of_ok hs h
    refine ⟨⟨_, rest, hs'⟩, ?_⟩
    rw [Cursor.length_located, Cursor.length_located, hs.unread, hs'.unread]
    exact hshrinks b cs _ rest hr b' rfl
  have hunroll := @loop_unroll Failure τ β α (Char × Pos) step (lift Cursor.stuck)
    (fun s => (cursor s).located) _ htakes b s ⟨p, cs, hs⟩
  rw [h] at hunroll
  exact hunroll

end HasCursor

end

/-! ## Sessions -/

namespace Session

variable {σ : Type}

/-- A session over a text, after which the source may break off. -/
def fresh (text : List Char) (fault : Option Fault) (memory : σ) (limit : Nat) : Session σ :=
  { Session.start (.giving .start text fault) memory with limit }

theorem fresh_at (q : Char → Bool) (text : List Char) (fault : Option Fault) (memory : σ)
    (limit : Nat) : (fresh text fault memory limit).cursor.At q .start text fault :=
  Cursor.at_giving q .start text fault

theorem fresh_before (text : List Char) (memory : σ) (limit : Nat) :
    (fresh text none memory limit).cursor.Before text :=
  (fresh_at (fun _ => true) text none memory limit).before

end Session

namespace Tracks

variable {σ α : Type} {q : Char → Bool} {t : Twin} {p : Pos} {done cs : List Char}
  {need post : α → List Char → Prop}

theorem onMemory {f : σ → α × σ} (h : ∀ a, post a cs) :
    Tracks q t p done cs (ReadM.onMemory f) (ReadM.onMemory f) need post :=
  fun s c hs hc => ⟨done, cs, rfl, hs, h (f s.memory).1, fun _ => ⟨c, rfl, hc⟩⟩

theorem onMemory_bind {β : Type} {f : σ → β × σ} {g₁ g₂ : β → ReadM σ α}
    (hg : ∀ b, Tracks q t p done cs (g₁ b) (g₂ b) need post) :
    Tracks q t p done cs (ReadM.onMemory f >>= g₁) (ReadM.onMemory f >>= g₂) need post :=
  fun s c hs hc => hg _ { s with memory := (f s.memory).2 } c hs hc

theorem fail {cause : Cause} {place : Pos} :
    Tracks q t p done cs (ReadM.fail cause place : ReadM σ α)
      (ReadM.fail cause (place.down t.lines)) need post :=
  throw

/-- A bracket without its opening is the same failure further down, as the same frames are open. -/
theorem stray {got : Bracket} {place : Pos} :
    Tracks q t p done cs (ReadM.stray got place : ReadM σ α)
      (ReadM.stray got (place.down t.lines)) need post := by
  intro s c hs hc
  refine ⟨done, cs, t.cut, rfl, hs, fun hsame => ⟨c, rfl, ?_⟩⟩
  rw [hsame.2.1, hsame.2.2, List.append_nil] at hc
  exact hc

theorem within_of_ok {x : ReadM σ α} {frame : Frame} {s u : Session σ} {a : α}
    (h : x { s with context := frame :: s.context } = .ok a u) :
    ReadM.within frame x s = .ok a { u with context := u.context.tail } := by
  simp only [ReadM.within, h]

theorem within_of_error {x : ReadM σ α} {frame : Frame} {s u : Session σ} {e : Failure}
    (h : x { s with context := frame :: s.context } = .error e u) :
    ReadM.within frame x s = .error e { u with context := u.context.tail } := by
  simp only [ReadM.within, h]

/-- What is read alike is read alike within a frame. -/
theorem within {x₁ x₂ : ReadM σ α} (h : Tracks q t p done cs x₁ x₂ need post) (frame : Frame) :
    Tracks q t p done cs (ReadM.within frame x₁) (ReadM.within frame x₂) need post := by
  intro s c hs hc
  have h := h { s with context := frame :: s.context } c hs hc
  cases hres : x₁ { s with context := frame :: s.context } with
  | error e s' =>
    rw [hres] at h
    rw [within_of_error hres]
    obtain ⟨front, rest, cut, hcs, hat, hsecond⟩ := h
    refine ⟨front, rest, cut, hcs, hat, fun hsame => ?_⟩
    obtain ⟨c', hx₂, hc'⟩ := hsecond hsame
    refine ⟨c', ?_, hc'⟩
    exact within_of_error (s := { s with cursor := c }) (u := { s' with cursor := c' }) hx₂
  | ok a s' =>
    rw [hres] at h
    rw [within_of_ok hres]
    obtain ⟨front, rest, hcs, hat, hp, hsecond⟩ := h
    refine ⟨front, rest, hcs, hat, hp, fun hgo => ?_⟩
    obtain ⟨c', hx₂, hc'⟩ := hsecond hgo
    exact ⟨c', within_of_ok (s := { s with cursor := c }) (u := { s' with cursor := c' }) hx₂, hc'⟩

end Tracks

end SExpr
