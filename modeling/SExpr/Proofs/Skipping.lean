import SExpr.Proofs.Concatenation

/-!
# Skipping twice

Where blanks and comments have been skipped, the cursor has looked at what comes next. To skip again
changes nothing then, not even how far the cursor has looked ahead.

* **`Cursor.Shows`**: the cursor has looked ahead.
* **`Dialect.Skipped`**: what stands before a token has been skipped, and can be skipped again.
* **`Known.skipped`**: so it is after every success of `skipTrivia`.
-/

namespace SExpr

open HasCursor

/-! ## Looking ahead twice -/

namespace Cursor

/-- The cursor has looked at the next character, or seen the end. -/
def Shows (r : Option Char) (c : Cursor) : Prop := peek c = .ok r c

variable {c c' : Cursor} {r : Option Char} {d : Char}

/-- To look ahead again changes nothing. -/
theorem fill_again (h : fill c = .ok () c') : fill c' = .ok () c' := by
  -- Either something was pending before, or the source has given a character, or it is over.
  cases hpending : c.pending with
  | cons e es =>
    have hfill : fill c = .ok () c := by
      unfold fill
      rw [hpending]
    cases hfill.symm.trans h
    exact hfill
  | nil =>
    unfold fill Source.pull at h
    simp only [hpending] at h
    cases hlocated : c.source.located with
    | cons e located =>
      simp only [hlocated] at h
      cases h
      rfl
    | nil =>
      cases hbroken : c.source.broken with
      | some broken => simp [hlocated, hbroken] at h
      | none =>
        simp only [hlocated, hbroken] at h
        cases h
        unfold fill Source.pull
        simp only [hlocated, hbroken, Option.toList_none]

/-- To look ahead leaves the place of what comes next. -/
theorem nextPos_of_fill (h : fill c = .ok () c') : c'.nextPos = c.nextPos := by
  unfold fill at h
  split at h
  · cases h
    rfl
  · split at h
    · cases h
    · cases h
      rfl

/-- What is looked at is the first of what is pending, and only the looking has moved the cursor. -/
theorem fill_of_peek (h : peek c = .ok r c') :
    fill c = .ok () c' ∧ r = c'.pending.head?.map Prod.fst := by
  unfold peek at h
  cases hfill : fill c with
  | error e c₁ =>
    rw [bind_of_error hfill] at h
    cases h
  | ok a c₁ =>
    rw [bind_of_ok hfill] at h
    cases h
    exact ⟨rfl, rfl⟩

/-- Whatever has been looked at is shown. -/
theorem shows_of_peek (h : peek c = .ok r c') : Shows r c' := by
  obtain ⟨hfill, hr⟩ := fill_of_peek h
  unfold Shows peek
  rw [bind_of_ok (fill_again hfill), hr]
  rfl

theorem Shows.eq_head? (h : Shows r c) : r = c.unread.head? := (ensures_peek c r c h).1

/-- A source that has to break off has not been asked for what comes next. -/
theorem Shows.fault_eq_none {q : Char → Bool} {p : Pos} {fault : Option Fault}
    (h : Shows none c) (hc : c.At q p [] fault) : fault = none := by
  cases fault with
  | none => rfl
  | some f =>
    obtain ⟨c', hpeek, -⟩ := peek_at_fault hc
    cases hpeek.symm.trans h

/-- A cursor that looks ahead stays where it is in the text. -/
theorem At.of_peek {q : Char → Bool} {p : Pos} {cs : List Char} {fault : Option Fault}
    (hc : c.At q p cs fault) (h : peek c = .ok r c') : c'.At q p cs fault := by
  cases cs with
  | cons d ds =>
    obtain ⟨c₁, hpeek, hc₁⟩ := peek_at_cons hc
    cases hpeek.symm.trans h
    exact hc₁
  | nil =>
    cases fault with
    | some f =>
      obtain ⟨c₁, hpeek, -⟩ := peek_at_fault hc
      cases hpeek.symm.trans h
    | none =>
      cases (peek_at_nil hc).symm.trans h
      exact hc

/-- Behind a character that has been taken, the place has advanced by it. -/
theorem nextPos_of_take? {q : Char → Bool} {p : Pos} {ds : List Char} {fault : Option Fault}
    (hc : c.At q p (d :: ds) fault) (h : take? c = .ok (some d) c') :
    c'.nextPos = p.advance d := by
  obtain ⟨c₁, es, hfill, -, hpending⟩ := fill_at_cons hc
  cases (take?_of_fill hfill hpending).symm.trans h
  rfl

theorem shows_putBack (d : Char) (c : Cursor) : Shows (some d) (putBack d c) := rfl

/-- What was put back can be taken again. -/
theorem take?_putBack (h : c.nextPos = c.pos.back.advance d) :
    take? (putBack d c) = .ok (some d) c := by
  show EStateM.Result.ok (some d) { c with nextPos := c.pos.back.advance d } = .ok (some d) c
  rw [← h]

end Cursor

/-! ## Blanks and comments -/

namespace Lexeme

open Cursor Text

variable {c : Cursor} {r : Option Char}

/-- There are no blanks to skip where none is shown. -/
theorem skipBlanks_of_shows (h : Shows r c) (hr : ∀ d ∈ r, isBlank d = false) :
    skipBlanks c = .ok () c := by
  have hround : skipBlanksRound () c = .ok (.inr ()) c := by
    unfold skipBlanksRound
    rw [bind_of_ok h]
    cases r with
    | none => rfl
    | some d =>
      simp only [hr d rfl, Bool.false_eq_true, if_false]
      rfl
  exact loop_of_done (τ := Cursor) hround

/-- Behind blanks, the character that follows is shown. -/
theorem skipBlanks_shows (c : Cursor) : Ensures skipBlanks c fun _ c' =>
    ∃ r, Shows r c' ∧ ∀ d ∈ r, isBlank d = false := by
  refine Ensures.loop (fun _ _ => True) (fun _ _ _ => CursorM.stuck_ne_ok) (fun _ c _ => ?_) trivial
  refine Ensures.bind (P := Shows) (fun r c' h => shows_of_peek h) fun r c' hshows => ?_
  cases r with
  | none => exact .pure ⟨none, hshows, nofun⟩
  | some d =>
    by_cases hd : isBlank d = true
    · simp only [hd, if_true]
      exact Ensures.bind (P := fun _ _ => True) (fun _ _ _ => trivial) fun _ _ _ => .pure trivial
    · simp only [hd, Bool.false_eq_true, if_false]
      refine .pure ⟨some d, hshows, ?_⟩
      simpa using hd

/-- There is nothing to skip where neither a blank nor a comment is shown. -/
theorem skipComments_of_shows {starts : List Char} (h : Shows r c)
    (hr : ∀ d ∈ r, isBlank d = false ∧ d ∉ starts) : skipComments starts c = .ok () c := by
  have hround : skipCommentsRound starts () c = .ok (.inr ()) c := by
    unfold skipCommentsRound
    rw [bind_of_ok (skipBlanks_of_shows h fun d hd => (hr d hd).1), bind_of_ok h]
    cases r with
    | none => rfl
    | some d =>
      simp only [List.contains_iff_mem, (hr d rfl).2, if_false]
      rfl
  exact loop_of_done (τ := Cursor) hround

/-- Behind comments, the character that follows is shown. -/
theorem skipComments_shows (starts : List Char) (c : Cursor) :
    Ensures (skipComments starts) c fun _ c' =>
      ∃ r, Shows r c' ∧ ∀ d ∈ r, isBlank d = false ∧ d ∉ starts := by
  refine Ensures.loop (fun _ _ => True) (fun _ _ _ => CursorM.stuck_ne_ok) (fun _ c _ => ?_) trivial
  refine (skipBlanks_shows c).bind fun _ c₁ hblank => ?_
  obtain ⟨r, hshows, hblank⟩ := hblank
  refine Ensures.bind (P := fun r' c' => r' = r ∧ c' = c₁) (fun r' c' h => ?_) fun r' c' h => ?_
  · cases hshows.symm.trans h
    exact ⟨rfl, rfl⟩
  · obtain ⟨rfl, rfl⟩ := h
    cases r' with
    | none => exact .pure ⟨none, hshows, nofun⟩
    | some d =>
      by_cases hd : d ∈ starts
      · simp only [List.contains_iff_mem.mpr hd, if_true]
        exact Ensures.bind (P := fun _ _ => True) (fun _ _ _ => trivial) fun _ _ _ => .pure trivial
      · simp only [List.contains_iff_mem, hd, if_false]
        refine .pure ⟨some d, hshows, fun e he => ?_⟩
        cases he
        exact ⟨hblank d rfl, hd⟩

end Lexeme

namespace Dialect

/-! ## Scheme -/

namespace Scheme

open Cursor

variable {p : Pos} {cs ds : List Char} {fault : Option Fault} {s u : Session Unit} {n : Nested Unit}

/-- Nothing is left to skip: what comes next has been looked at, and if it is a sharp sign, that
begins no comment. -/
def Rests (n : Nested Unit) (u : Session Unit) : Prop :=
  ∃ r, Shows r u.cursor ∧ (∀ d ∈ r, Text.isBlank d = false ∧ d ∉ [';']) ∧
    (r = some '#' → sharpRound n u = .ok (.inr ()) u)

/-- Where a session rests, there is nothing to skip. -/
theorem Rests.trivia (h : Rests n u) : trivia n u = .ok () u := by
  obtain ⟨r, hshows, hr, hsharp⟩ := h
  have hround : triviaRound n () u = .ok (.inr ()) u := by
    rw [triviaRound_eq]
    refine (onCursor_bind (Lexeme.skipComments_of_shows hshows hr)).trans
      ((onCursor_bind hshows).trans ?_)
    split
    · next hr => exact hsharp hr
    · rfl
  exact loop_of_done (τ := Session Unit) hround

/-- **A sharp sign that was put back** is taken and put back again, at the same place. -/
theorem sharpRound_rests (hs : s.cursor.At schemeLexicon.isAtomChar p ('#' :: ds) fault) :
    Ensures (sharpRound n) s fun r u => r = .inr () → Rests n u := by
  obtain ⟨c₁, htake, hc₁, -⟩ := take?_at_cons hs
  refine ReadM.ensures_here fun place => ?_
  refine Ensures.bind (P := fun _ s₁ => s₁ = { s with cursor := c₁ }) (fun _ s₁ h => ?_)
    fun _ s₁ hs₁ => ?_
  · cases (Tracks.lift_of_ok (τ := Session Unit) htake).symm.trans h
    rfl
  subst hs₁
  -- What comes after the sharp sign has been looked at, and the sign goes back to its place.
  refine Ensures.bind (P := fun r s₂ => ∃ c₂, s₂ = { s with cursor := c₂ } ∧ Shows r c₂ ∧
    c₂.nextPos = c₂.pos.back.advance '#') (fun r s₂ h => ?_) fun r s₂ hs₂ => ?_
  · have hcursor := ReadM.ensures_onCursor (P := fun r c₂ => peek c₁ = .ok r c₂)
      (s := { s with cursor := c₁ }) (fun _ _ h => h) r s₂ h
    obtain ⟨heq, hpeek⟩ := hcursor
    refine ⟨s₂.cursor, heq, shows_of_peek hpeek, ?_⟩
    rw [(hc₁.of_peek hpeek).pos, Pos.back_advance (by decide),
      nextPos_of_fill (fill_of_peek hpeek).1, nextPos_of_take? hs htake]
  obtain ⟨c₂, rfl, hshows, hnext⟩ := hs₂
  split
  · exact Ensures.bind (P := fun _ _ => True) (fun _ _ _ => trivial) fun _ _ _ =>
      Ensures.bind (P := fun _ _ => True) (fun _ _ _ => trivial) fun _ _ _ => .pure nofun
  · exact Ensures.bind (P := fun _ _ => True) (fun _ _ _ => trivial) fun _ _ _ => .pure nofun
  · next hsemi hbang =>
    intro r' u h _
    cases h
    refine ⟨some '#', shows_putBack '#' c₂, ?_, fun _ => ?_⟩
    · intro d hd
      cases hd
      decide
    · refine (onCursor_bind rfl).trans ((onCursor_bind (take?_putBack hnext)).trans
        ((onCursor_bind (s := { s with cursor := c₂ }) (x := peek) hshows).trans ?_))
      split
      · exact (hsemi rfl).elim
      · exact (hbang rfl).elim
      · rfl

/-- The last round leaves the session at rest. -/
theorem triviaRound_rests (hs : s.cursor.At schemeLexicon.isAtomChar p cs fault) :
    Ensures (triviaRound n ()) s fun r u => r = .inr () → Rests n u := by
  rw [triviaRound_eq]
  -- Blanks and line comments first: what follows them is shown.
  have hcomments : Tracks schemeLexicon.isAtomChar { cut := fault } p [] cs
      (Lexeme.skipComments [';'] : ReadM Unit Unit) _ _ _ :=
    Tracks.onCursor (Lexeme.tracks_skipComments [';'])
  refine Ensures.bind (P := fun _ s₁ =>
    (∃ p' mid, s₁.cursor.At schemeLexicon.isAtomChar p' mid fault) ∧
      ∃ r, Shows r s₁.cursor ∧ ∀ d ∈ r, Text.isBlank d = false ∧ d ∉ [';'])
    (fun _ s₁ h => ?_) fun _ s₁ hs₁ => ?_
  · obtain ⟨front, mid, -, hs₁, -⟩ := hcomments.of_ok hs h
    refine ⟨⟨_, mid, hs₁⟩, ?_⟩
    exact (ReadM.ensures_onCursor (Lexeme.skipComments_shows [';'] s.cursor) _ s₁ h).2
  -- Then only a number sign can open something to be skipped.
  obtain ⟨⟨p', mid, hs₁⟩, r, hshows, hr⟩ := hs₁
  intro r' u h hr'
  have h : (if r = some '#' then sharpRound n else pure (.inr ())) s₁ = .ok r' u :=
    (onCursor_bind hshows).symm.trans h
  split at h
  · next hsharp =>
    cases mid with
    | nil =>
      have hhead := hshows.eq_head?
      rw [hs₁.unread, hsharp] at hhead
      cases hhead
    | cons d ds =>
      have hhead := hshows.eq_head?
      rw [hs₁.unread, hsharp] at hhead
      cases hhead
      exact sharpRound_rests hs₁ r' u h hr'
  · next hsharp =>
    cases h
    exact ⟨r, hshows, hr, fun h => absurd h hsharp⟩

/-- Behind all comments of Scheme, the session rests. -/
theorem trivia_rests (hn : Nested.Tracked schemeLexicon.isAtomChar { cut := fault } n n)
    (hs : s.cursor.At schemeLexicon.isAtomChar p cs fault) :
    Ensures (trivia n) s fun _ u => Rests n u := by
  refine Ensures.loop (fun _ s => ∃ p cs, s.cursor.At schemeLexicon.isAtomChar p cs fault)
    (fun _ _ _ => ReadM.stuck_ne_ok) (fun _ s hs => ?_) ⟨p, cs, hs⟩
  obtain ⟨p, cs, hs⟩ := hs
  intro r u h
  cases r with
  | inl a =>
    obtain ⟨front, rest, -, hu, -⟩ := (tracks_triviaRound hn () p cs).of_ok hs h
    exact ⟨_, rest, hu⟩
  | inr a => exact triviaRound_rests hs _ u h rfl

end Scheme

/-! ## Dialects -/

variable {σ : Type} {d : Dialect σ} {p : Pos} {cs : List Char} {fault : Option Fault}
  {s u : Session σ}

/-- What stands before a token has been skipped between `s` and `u`. It could be skipped again
without any change, as the cursor has looked at what comes next. -/
structure Skipped (d : Dialect σ) (s u : Session σ) : Prop where
  first : d.skipTrivia s = .ok () u
  again : d.skipTrivia u = .ok () u
  cursor : u = { s with cursor := u.cursor }
  shows : ∃ r, u.cursor.Shows r

/-- **To skip twice is to skip once.** -/
theorem Known.skipped (hd : d.Known) (hs : s.cursor.At d.isAtomChar p cs fault)
    (h : d.skipTrivia s = .ok () u) : d.Skipped s u := by
  have hcursor := hd.trivia_eq (hd.uniform.nested s.room) h
  have hroom : u.room = s.room := by rw [hcursor]; rfl
  -- It is enough that the same reader of what is nested skips nothing more.
  have hskipped (hrests : d.trivia (d.nested s.room) u = .ok () u)
      (hshows : ∃ r, u.cursor.Shows r) : d.Skipped s u := by
    refine ⟨h, ?_, hcursor, hshows⟩
    show d.trivia (d.nested u.room) u = .ok () u
    rw [hroom]
    exact hrests
  have honCursor {x : CursorM Unit} (hx : x u.cursor = .ok () u.cursor) :
      (ReadM.onCursor x : ReadM σ Unit) u = .ok () u :=
    Tracks.lift_of_ok (τ := Session σ) hx
  have hcomments {starts : List Char}
      (h : ReadM.onCursor (Lexeme.skipComments starts) s = .ok () u) :
      (ReadM.onCursor (Lexeme.skipComments starts) : ReadM σ Unit) u = .ok () u ∧
        ∃ r, u.cursor.Shows r := by
    obtain ⟨-, r, hshows, hr⟩ :=
      ReadM.ensures_onCursor (Lexeme.skipComments_shows starts s.cursor) _ u h
    exact ⟨honCursor (Lexeme.skipComments_of_shows hshows hr), r, hshows⟩
  cases hd with
  | basic =>
    obtain ⟨-, r, hshows, hr⟩ :=
      ReadM.ensures_onCursor (Lexeme.skipBlanks_shows s.cursor) _ u h
    exact hskipped (honCursor (Lexeme.skipBlanks_of_shows hshows hr)) ⟨r, hshows⟩
  | extended => exact hskipped (hcomments h).1 (hcomments h).2
  | scheme =>
    have hrests := Scheme.trivia_rests (scheme_tracked.nested _ s.room) hs _ u h
    obtain ⟨r, hshows, -⟩ := id hrests
    exact hskipped hrests.trivia ⟨r, hshows⟩
  | commonLisp options => exact hskipped (hcomments h).1 (hcomments h).2
  | sparql => exact hskipped (hcomments h).1 (hcomments h).2

end Dialect

end SExpr
