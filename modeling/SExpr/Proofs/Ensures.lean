import SExpr.Dialect.Structure
import SExpr.Proofs.Lexeme

/-!
# What an action that succeeds has ensured

A reader may fail, and then nothing is said about it. `Ensures x s post` says that if `x` succeeds
from `s`, its result and the state it leaves satisfy `post`. The rules follow the text of a reader;
a loop takes an invariant.
-/

namespace SExpr

variable {ε σ τ α β : Type}

/-- If the action succeeds from `s`, then `post` holds of what it returns and leaves. -/
def Ensures (x : EStateM ε τ α) (s : τ) (post : α → τ → Prop) : Prop :=
  ∀ a s', x s = .ok a s' → post a s'

namespace Ensures

theorem mono {x : EStateM ε τ α} {s : τ} {P Q : α → τ → Prop} (hx : Ensures x s P)
    (h : ∀ a s', P a s' → Q a s') : Ensures x s Q :=
  fun a s' hok => h a s' (hx a s' hok)

theorem pure {a : α} {s : τ} {P : α → τ → Prop} (h : P a s) :
    Ensures (Pure.pure a : EStateM ε τ α) s P := by
  intro a' s' hok
  cases hok
  exact h

/-- Actions in turn ensure in turn: the first ensures what the second starts from. -/
theorem bind {x : EStateM ε τ α} {f : α → EStateM ε τ β} {s : τ} {P : α → τ → Prop}
    {Q : β → τ → Prop} (hx : Ensures x s P) (hf : ∀ a s', P a s' → Ensures (f a) s' Q) :
    Ensures (x >>= f) s Q := by
  intro b s' hok
  simp only [Bind.bind, EStateM.bind] at hok
  cases hres : x s with
  | error e s₁ => simp [hres] at hok
  | ok a s₁ =>
    simp only [hres] at hok
    exact hf a s₁ (hx a s₁ hres) b s' hok

theorem throw {e : ε} {s : τ} {P : α → τ → Prop} :
    Ensures (MonadExcept.throw e : EStateM ε τ α) s P := by
  intro a s' hok
  cases hok

/-- A loop ensures what its last round makes of the invariant. -/
theorem loop {γ : Type} {step : α → EStateM ε τ (α ⊕ β)} {stuck : EStateM ε τ β} (Inv : α → τ → Prop)
    {P : β → τ → Prop} (hstuck : ∀ s b s', stuck s ≠ .ok b s')
    (hstep : ∀ a s, Inv a s → Ensures (step a) s fun
      | .inl a', s' => Inv a' s'
      | .inr b, s' => P b s')
    {xs : List γ} {a : α} {s : τ} (hinv : Inv a s) :
    Ensures (SExpr.loop step stuck xs a) s P := by
  intro b s' hok
  refine @loop_ok_induct _ _ _ _ _ step stuck hstuck Inv P ?_ ?_ xs a s b s' hinv hok
  · exact fun a s a' s' hinv hround => hstep a s hinv _ s' hround
  · exact fun a s b s' hinv hround => hstep a s hinv _ s' hround

end Ensures

/-! ## Cursors -/

namespace Cursor

/-- To fetch a character changes nothing about what is to be read, and shows the first of it. -/
theorem ensures_fill (c : Cursor) : Ensures fill c fun _ c' =>
    c'.unread = c.unread ∧ c'.pending.head?.map Prod.fst = c.unread.head? := by
  intro a c' hok
  unfold fill at hok
  cases hp : c.pending with
  | cons q qs =>
    simp only [hp] at hok
    cases hok
    simp [unread, hp]
  | nil =>
    simp only [hp, Source.pull] at hok
    cases hlocated : c.source.located with
    | cons e located =>
      simp only [hlocated] at hok
      cases hok
      simp [unread, Source.rest, hp, hlocated]
    | nil =>
      cases hbroken : c.source.broken with
      | some broken => simp [hlocated, hbroken] at hok
      | none =>
        simp only [hlocated, hbroken] at hok
        cases hok
        simp [unread, Source.rest, hp, hlocated]

/-- To look gives the first character and takes none. -/
theorem ensures_peek (c : Cursor) : Ensures peek c fun r c' =>
    r = c.unread.head? ∧ c'.unread = c.unread := by
  refine (ensures_fill c).bind fun _ c' h => ?_
  intro r c'' hok
  cases hok
  exact ⟨h.2, h.1⟩

/-- To take a character gives the first one and leaves the others. -/
theorem ensures_take? (c : Cursor) : Ensures take? c fun r c' =>
    r = c.unread.head? ∧ c'.unread = c.unread.tail := by
  intro r c'' hok
  cases hfill : fill c with
  | error e c' =>
    rw [take?_of_fill_error hfill] at hok
    cases hok
  | ok u c' =>
    obtain ⟨hunread, hhead⟩ := ensures_fill c u c' hfill
    cases hp : c'.pending with
    | nil =>
      rw [take?_of_fill_nil hfill hp] at hok
      cases hok
      rw [hp] at hhead
      -- Nothing was pending after fetching, so there was nothing to read.
      have hempty : c.unread = [] := List.head?_eq_none_iff.mp hhead.symm
      rw [hunread, hempty]
      exact ⟨rfl, rfl⟩
    | cons q qs =>
      rw [take?_of_fill hfill hp] at hok
      cases hok
      rw [hp] at hhead
      refine ⟨hhead, ?_⟩
      rw [← hunread, unread, unread, hp]
      rfl

/-- A character that has to come is the first one. -/
theorem ensures_take (awaited : Awaited) (c : Cursor) : Ensures (take awaited) c fun d c' =>
    c.unread.head? = some d ∧ c'.unread = c.unread.tail := by
  refine Ensures.bind (P := fun _ c' => c' = c) ?_ fun p c' hc' => ?_
  · intro p c' hhere
    cases hhere
    rfl
  · subst hc'
    refine (ensures_take? c').bind fun r c₁ h => ?_
    cases r with
    | none => exact .throw
    | some e => exact .pure ⟨h.1.symm, h.2⟩

end Cursor

namespace Lexeme

open Cursor

/-- After blanks comes something that is none. -/
theorem ensures_skipBlanks (c : Cursor) : Ensures skipBlanks c fun _ c' =>
    ∀ d ∈ c'.unread.head?, Text.isBlank d = false := by
  -- Nothing has to hold between the rounds; the last one has seen what follows.
  refine Ensures.loop (fun _ _ => True) (fun _ _ _ => CursorM.stuck_ne_ok) (fun _ c _ => ?_) trivial
  refine (ensures_peek c).bind fun r c' h => ?_
  obtain ⟨rfl, hu⟩ := h
  cases hhead : c.unread.head? with
  | none =>
    refine .pure ?_
    simp [hu, hhead]
  | some d =>
    by_cases hd : Text.isBlank d = true
    · simp only [hd, if_true]
      exact (ensures_take? c').bind fun _ _ _ => .pure trivial
    · simp only [hd, Bool.false_eq_true, if_false]
      refine .pure ?_
      simpa [hu, hhead] using hd

/-- After comments are skipped, a token begins or the input ends. -/
theorem ensures_skipComments (starts : List Char) (c : Cursor) :
    Ensures (skipComments starts) c fun _ c' => Bare starts c'.unread := by
  refine Ensures.loop (fun _ _ => True) (fun _ _ _ => CursorM.stuck_ne_ok) (fun _ c _ => ?_) trivial
  refine (ensures_skipBlanks c).bind fun _ c₁ hblank => (ensures_peek c₁).bind fun r c₂ h => ?_
  obtain ⟨rfl, hu⟩ := h
  cases hhead : c₁.unread.head? with
  | none =>
    refine .pure ?_
    simp [Bare, hu, hhead]
  | some d =>
    by_cases hd : starts.contains d = true
    · simp only [hd, if_true]
      exact Ensures.bind (P := fun _ _ => True) (fun _ _ _ => trivial) fun _ _ _ => .pure trivial
    · simp only [hd, Bool.false_eq_true, if_false]
      refine .pure ?_
      intro e he
      rw [hu, hhead, Option.mem_some_iff] at he
      subst he
      exact ⟨hblank d hhead, by simpa using hd⟩

/-- A literal is as long as possible. -/
theorem ensures_literal (p : Char → Bool) (c : Cursor) : Ensures (literal p) c fun text c' =>
    text = c.unread.takeWhile p ∧ c'.unread = c.unread.dropWhile p := by
  -- What is taken and what could still be taken make up the same run of characters.
  refine Ensures.loop (fun taken c' =>
      taken.reverse ++ c'.unread.takeWhile p = c.unread.takeWhile p ∧
        c'.unread.dropWhile p = c.unread.dropWhile p)
    (fun _ _ _ => CursorM.stuck_ne_ok) (fun taken c' hinv => ?_) ⟨rfl, rfl⟩
  refine (ensures_peek c').bind fun r c₁ h => ?_
  obtain ⟨rfl, hu⟩ := h
  cases hunread : c'.unread with
  | nil =>
    refine .pure ?_
    simpa [hunread, hu] using hinv
  | cons d ds =>
    rw [hunread] at hinv
    simp only [List.head?_cons]
    by_cases hd : p d = true
    · simp only [hd, if_true]
      refine (ensures_take? c₁).bind fun _ c₂ h => .pure ?_
      show (d :: taken).reverse ++ c₂.unread.takeWhile p = c.unread.takeWhile p ∧
        c₂.unread.dropWhile p = c.unread.dropWhile p
      rw [List.takeWhile_cons_of_pos hd, List.dropWhile_cons_of_pos hd] at hinv
      rw [h.2, hu, hunread, List.tail_cons, List.reverse_cons, List.append_assoc]
      exact hinv
    · simp only [hd, Bool.false_eq_true, if_false]
      refine .pure ?_
      show taken.reverse = c.unread.takeWhile p ∧ c₁.unread = c.unread.dropWhile p
      rw [List.takeWhile_cons_of_neg hd, List.dropWhile_cons_of_neg hd, List.append_nil] at hinv
      rw [hu, hunread]
      exact hinv

/-- An IRI ends at the first closing bracket. -/
theorem ensures_bracketedIri (start : Pos) (c : Cursor) :
    Ensures (bracketedIri start) c fun raw _ =>
      '>' ∉ raw ∧ ∃ rest, c.unread = raw ++ '>' :: rest := by
  refine Ensures.loop (fun taken c' => '>' ∉ taken ∧ c.unread = taken.reverse ++ c'.unread)
    (fun _ _ _ => CursorM.stuck_ne_ok) (fun taken c' hinv => ?_) ⟨by simp, rfl⟩
  refine (ensures_take? c').bind fun r c₁ h => ?_
  obtain ⟨rfl, hu⟩ := h
  cases hunread : c'.unread with
  | nil => exact .throw
  | cons d ds =>
    rw [hunread] at hinv hu
    simp only [List.head?_cons]
    by_cases hd : d = '>'
    · simp only [hd, if_true]
      refine .pure ⟨by simpa using hinv.1, ds, ?_⟩
      rw [hinv.2, hd]
    · simp only [hd, if_false]
      refine .pure ⟨?_, ?_⟩
      · rw [List.mem_cons, not_or]
        exact ⟨Ne.symm hd, hinv.1⟩
      · rw [hinv.2, hu, List.tail_cons, List.reverse_cons, List.append_assoc]
        rfl

end Lexeme

/-! ## Sessions -/

namespace ReadM

/-- An action on the cursor changes nothing but the cursor. -/
theorem ensures_onCursor {x : CursorM α} {s : Session σ} {P : α → Cursor → Prop}
    (hx : Ensures x s.cursor P) :
    Ensures (onCursor x : ReadM σ α) s fun a s' =>
      s' = { s with cursor := s'.cursor } ∧ P a s'.cursor := by
  intro a s' hok
  unfold onCursor at hok
  cases hres : x s.cursor with
  | error e c' => simp [hres] at hok
  | ok b c' =>
    simp only [hres] at hok
    cases hok
    exact ⟨rfl, hx _ _ hres⟩

theorem ensures_here {f : Pos → ReadM σ β} {s : Session σ} {P : β → Session σ → Prop}
    (h : ∀ p, Ensures (f p) s P) :
    Ensures ((onCursor Cursor.here : ReadM σ Pos) >>= f) s P :=
  fun b s' hok => h s.cursor.pos b s' hok

/-- An action on the memory changes nothing but the memory. -/
theorem ensures_onMemory {f : σ → α × σ} {s : Session σ} :
    Ensures (onMemory f) s fun a s' =>
      a = (f s.memory).1 ∧ s' = { s with memory := (f s.memory).2 } := by
  intro a s' hok
  cases hok
  exact ⟨rfl, rfl⟩

theorem ensures_fail {cause : Cause} {p : Pos} {s : Session σ} {P : α → Session σ → Prop} :
    Ensures (fail cause p) s P := .throw

theorem ensures_stray {b : Bracket} {p : Pos} {s : Session σ} {P : α → Session σ → Prop} :
    Ensures (stray b p) s P := by
  intro a s' hok
  cases hok

/-- A frame is opened before an action and closed after it. -/
theorem ensures_within {x : ReadM σ α} {frame : Frame} {s : Session σ} {P : α → Session σ → Prop}
    (hx : Ensures x { s with context := frame :: s.context } fun a s' =>
      P a { s' with context := s'.context.tail }) : Ensures (within frame x) s P := by
  intro a s' hok
  unfold within at hok
  cases hres : x { s with context := frame :: s.context } with
  | error e s₁ => simp [hres] at hok
  | ok b s₁ =>
    simp only [hres] at hok
    cases hok
    exact hx _ _ hres

end ReadM

end SExpr
