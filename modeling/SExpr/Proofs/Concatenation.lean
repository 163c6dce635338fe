import SExpr.Proofs.Ensures
import SExpr.Proofs.Surroundings

/-!
# Documents one after the other

A document may be followed by a newline and another document. The values of the first one are read
as they are alone. What comes after the last of them, blanks and comments, is read up to the newline
and then goes on into the second document, which is read as it is alone, only further down.

* **`GoesOn`**: what has come to the end of a text goes on after a newline as it begins there.
* **`Dialect.readAll_append`**: reading two documents at once.
-/

namespace SExpr

open HasCursor

/-! ## Going on after a newline -/

section

variable {τ α β : Type} [HasCursor τ] {q : Char → Bool} {p p' : Pos} {cs cs' text : List Char}
  {s s' : τ}

/-- If the action comes to the end of the text, then, where a newline and `text` follow, it does
what it does at the beginning of `text`. -/
def GoesOn (q : Char → Bool) (text : List Char) (x : EStateM Failure τ Unit) : Prop :=
  ∀ p cs s c u, (cursor s).At q p cs none → c.At q p (cs ++ '\n' :: text) none →
    x s = .ok () u → (cursor u).unread = [] →
    ∃ c', c'.At q (p.advanceAll (cs ++ ['\n'])) text none ∧ x (setCursor s c) = x (setCursor s c')

/-- Where a reading of `front` leaves off if it is followed by `rest`, a newline and `text`. If
`rest` is empty, the newline may have been taken too. -/
def Resumes (q : Char → Bool) (p : Pos) (front rest text : List Char) (c : Cursor) : Prop :=
  c.At q (p.advanceAll front) (rest ++ '\n' :: text) none ∨
    rest = [] ∧ c.At q (p.advanceAll (front ++ ['\n'])) text none

/-- A round that stops at the end of the text goes on after the newline as it begins there; any
other round does the same where a newline and `text` follow. -/
structure RoundGoesOn (q : Char → Bool) (text : List Char)
    (step : Unit → EStateM Failure τ (Unit ⊕ Unit)) : Prop where
  stop : ∀ p cs s c u, (cursor s).At q p cs none → c.At q p (cs ++ '\n' :: text) none →
    step () s = .ok (.inr ()) u → (cursor u).unread = [] →
    ∃ c', c'.At q (p.advanceAll (cs ++ ['\n'])) text none ∧
      step () (setCursor s c) = step () (setCursor s c')
  more : ∀ p cs s c u, (cursor s).At q p cs none → c.At q p (cs ++ '\n' :: text) none →
    step () s = .ok (.inl ()) u →
    ∃ c' front rest, cs = front ++ rest ∧ (cursor u).At q (p.advanceAll front) rest none ∧
      Resumes q p front rest text c' ∧
      step () (setCursor s c) = .ok (.inl ()) (setCursor s c') ∧
      ∀ c, setCursor u c = setCursor s c

omit [HasCursor τ] in
theorem bind_congr_left {x : EStateM Failure τ β} {f : β → EStateM Failure τ α}
    (h : x s = x s') : (x >>= f) s = (x >>= f) s' := by
  simp only [Bind.bind, EStateM.bind, h]

/-- If the first round of a loop does the same in two sessions, so does the loop. -/
theorem loop_congr {step : β → EStateM Failure τ (β ⊕ α)} {needR : β ⊕ α → List Char → Prop}
    {R : β → List Char → β ⊕ α → List Char → Prop} {b : β} {fault : Option Fault}
    (hstep : ∀ b p cs, Tracks q { cut := fault } p [] cs (step b) (step b) needR (R b cs))
    (hshrinks : ∀ b cs r rest, R b cs r rest → Shrinks cs r rest)
    (hs : (cursor s).At q p cs fault) (hs' : (cursor s').At q p' cs' fault)
    (h : step b s = step b s') : HasCursor.loop step b s = HasCursor.loop step b s' := by
  cases hres : step b s' with
  | error e u => rw [loop_of_error hres, loop_of_error (h.trans hres)]
  | ok r u =>
    cases r with
    | inr a => rw [loop_of_done hres, loop_of_done (h.trans hres)]
    | inl b' =>
      rw [loop_of_more hstep hshrinks hs' hres, loop_of_more hstep hshrinks hs (h.trans hres)]

/-- **A loop goes on after a newline** if its rounds do. -/
theorem RoundGoesOn.loop {step : Unit → EStateM Failure τ (Unit ⊕ Unit)}
    {needR : Unit ⊕ Unit → List Char → Prop} {R : Unit → List Char → Unit ⊕ Unit → List Char → Prop}
    (hstep : ∀ b p cs, Tracks q {} p [] cs (step b) (step b) needR (R b cs))
    (hshrinks : ∀ b cs r rest, R b cs r rest → Shrinks cs r rest)
    (hround : RoundGoesOn q text step) : GoesOn q text (HasCursor.loop step ()) := by
  intro p cs s c u hs hc hres hunread
  -- The induction is on the length of the text; each round that goes on makes it shorter.
  induction hlength : cs.length using Nat.strong_induction_on generalizing p cs s c with
  | _ n ih =>
    subst hlength
    have hc₀ : (cursor (setCursor s c)).At q p (cs ++ '\n' :: text) none := by
      rwa [cursor_setCursor]
    cases hfirst : step () s with
    | error e u₁ =>
      rw [loop_of_error hfirst] at hres
      cases hres
    | ok r u₁ =>
      cases r with
      | inr a =>
        rw [loop_of_done hfirst] at hres
        cases hres
        obtain ⟨c', hc', hgoes⟩ := hround.stop p cs s c u hs hc hfirst hunread
        have hc'₀ : (cursor (setCursor s c')).At q (p.advanceAll (cs ++ ['\n'])) text none := by
          rwa [cursor_setCursor]
        exact ⟨c', hc', loop_congr hstep hshrinks hc₀ hc'₀ hgoes⟩
      | inl a =>
        obtain ⟨c₁, front, rest, rfl, hu₁, hresumes, hsecond, hset⟩ :=
          hround.more p cs s c u₁ hs hc hfirst
        rw [loop_of_more hstep hshrinks hs hfirst] at hres
        rw [loop_of_more hstep hshrinks hc₀ hsecond]
        rcases hresumes with hc₁ | ⟨rfl, hc₁⟩
        · -- The newline is still to come, after less of the text.
          have hlt : rest.length < (front ++ rest).length := by
            obtain ⟨_, rest', -, hu₁', hr⟩ := (hstep () p _).of_ok hs hfirst
            have hrest : rest = rest' := hu₁.unread.symm.trans hu₁'.unread
            rw [hrest] at hr ⊢
            exact hshrinks _ _ _ _ hr a rfl
          obtain ⟨c', hc', hgoes⟩ := ih rest.length hlt _ rest u₁ c₁ hu₁ hc₁ hres rfl
          rw [hset, hset] at hgoes
          refine ⟨c', ?_, hgoes⟩
          rwa [List.append_assoc, Pos.advanceAll_append]
        · -- The round has taken the newline with it.
          exact ⟨c₁, by rwa [List.append_nil], rfl⟩

/-- After blanks or comments, the round either stops before something, or does the same where a
newline and `text` follow. -/
def AfterGoesOn (q : Char → Bool) (text : List Char) (next : EStateM Failure τ (Unit ⊕ Unit)) :
    Prop :=
  ∀ p cs s c r u, (cursor s).At q p cs none → c.At q p (cs ++ '\n' :: text) none →
    next s = .ok r u →
    r = .inr () ∧ (cs ≠ [] → (cursor u).unread ≠ []) ∨
    r = .inl () ∧ cs ≠ [] ∧ ∃ c' front rest, cs = front ++ rest ∧
      (cursor u).At q (p.advanceAll front) rest none ∧ Resumes q p front rest text c' ∧
      next (setCursor s c) = .ok (.inl ()) (setCursor s c') ∧ ∀ c, setCursor u c = setCursor s c

/-- Where blanks or comments leave off, alone and where a newline and `text` follow. -/
theorem skip_append {skip : EStateM Failure τ Unit} {next : EStateM Failure τ (Unit ⊕ Unit)}
    {post : Unit → List Char → Prop} {r : Unit ⊕ Unit} {u : τ} {c : Cursor}
    (htracks : Tracks q { more := '\n' :: text } p [] cs skip skip (fun _ rest => rest ≠ []) post)
    (hs : (cursor s).At q p cs none) (hc : c.At q p (cs ++ '\n' :: text) none)
    (h : (skip >>= fun _ => next) s = .ok r u) :
    ∃ s₁ front mid, skip s = .ok () s₁ ∧ next s₁ = .ok r u ∧ cs = front ++ mid ∧
      (cursor s₁).At q (p.advanceAll front) mid none ∧
      (mid ≠ [] → ∃ c₁, skip (setCursor s c) = .ok () (setCursor s₁ c₁) ∧
        c₁.At q (p.advanceAll front) (mid ++ '\n' :: text) none) := by
  have htracks := htracks s c hs hc
  cases hres : skip s with
  | error e s₁ =>
    rw [bind_of_error hres] at h
    cases h
  | ok a s₁ =>
    rw [bind_of_ok hres] at h
    rw [hres] at htracks
    obtain ⟨front, mid, hcs, hs₁, -, hsecond⟩ := htracks
    exact ⟨s₁, front, mid, rfl, h, hcs, hs₁, fun hmid => hsecond (.inr ⟨rfl, hmid⟩)⟩

/-- A round of blanks or comments, and something after them. -/
theorem AfterGoesOn.round {skip : EStateM Failure τ Unit} {next : EStateM Failure τ (Unit ⊕ Unit)}
    {post : List Char → Unit → List Char → Prop} (hskip : GoesOn q text skip)
    (htracks : ∀ p cs, Tracks q { more := '\n' :: text } p [] cs skip skip (fun _ rest => rest ≠ [])
      (post cs))
    (hset : ∀ s u, skip s = .ok () u → ∀ c, setCursor u c = setCursor s c)
    (hnext : AfterGoesOn q text next) : RoundGoesOn q text fun _ => skip >>= fun _ => next where
  stop p cs s c u hs hc h hunread := by
    obtain ⟨s₁, front, mid, hs₁, hnext₁, rfl, hat, hsecond⟩ := skip_append (htracks p cs) hs hc h
    by_cases hmid : mid = []
    · -- The blanks have come to the end, and go on after the newline.
      subst hmid
      obtain ⟨c', hc', hgoes⟩ := hskip p _ s c s₁ hs hc hs₁ hat.unread
      exact ⟨c', hc', bind_congr_left hgoes⟩
    · obtain ⟨c₁, -, hc₁⟩ := hsecond hmid
      rcases hnext _ mid s₁ c₁ _ u hat hc₁ hnext₁ with ⟨-, hleft⟩ | ⟨hr, -⟩
      · exact absurd hunread (hleft hmid)
      · cases hr
  more p cs s c u hs hc h := by
    obtain ⟨s₁, front, mid, hs₁, hnext₁, rfl, hat, hsecond⟩ := skip_append (htracks p cs) hs hc h
    have hmid : mid ≠ [] := by
      obtain ⟨c₀, hc₀⟩ := Cursor.exists_at q (p.advanceAll front) (mid ++ '\n' :: text) none
      rcases hnext _ mid s₁ c₀ _ u hat hc₀ hnext₁ with ⟨hr, -⟩ | ⟨-, hmid, -⟩
      · cases hr
      · exact hmid
    obtain ⟨c₁, hskip₂, hc₁⟩ := hsecond hmid
    rcases hnext _ mid s₁ c₁ _ u hat hc₁ hnext₁ with
      ⟨hr, -⟩ | ⟨-, -, c', line, rest, rfl, hu, hresumes, hnext₂, hset₂⟩
    · cases hr
    · have hset₁ := hset s s₁ hs₁
      refine ⟨c', front ++ line, rest, (List.append_assoc ..).symm, ?_, ?_, ?_, fun c => ?_⟩
      · rwa [Pos.advanceAll_append]
      · unfold Resumes at hresumes ⊢
        rwa [List.append_assoc, Pos.advanceAll_append, Pos.advanceAll_append]
      · rw [bind_of_ok hskip₂, hnext₂, hset₁]
      · rw [hset₂, hset₁]

/-- What goes on as a cursor goes on as a session. -/
theorem GoesOn.onCursor {x : CursorM Unit} (hx : GoesOn q text x) :
    GoesOn q text (lift x : EStateM Failure τ Unit) := by
  intro p cs s c u hs hc hres hunread
  rw [lift_eq] at hres
  cases hxs : x (cursor s) with
  | error e c₁ =>
    rw [hxs] at hres
    cases hres
  | ok a c₁ =>
    rw [hxs] at hres
    cases hres
    rw [cursor_setCursor] at hunread
    obtain ⟨c', hc', hgoes⟩ := hx p cs (cursor s) c c₁ hs hc hxs hunread
    have hgoes : x c = x c' := hgoes
    refine ⟨c', hc', ?_⟩
    rw [lift_eq, lift_eq, cursor_setCursor, cursor_setCursor, hgoes]
    cases x c' <;> simp only [setCursor_setCursor]

end

/-! ## Blanks and comments -/

namespace Lexeme

open Cursor Text

variable {q : Char → Bool} {p : Pos} {cs text : List Char} {c u : Cursor}

/-- A blank is taken by a round. -/
theorem skipBlanksRound_blank {d : Char} {ds : List Char} (hd : isBlank d = true)
    (hc : c.At q p (d :: ds) none) :
    ∃ c', skipBlanksRound () c = .ok (.inl ()) c' ∧ c'.At q (p.advance d) ds none := by
  obtain ⟨c₁, hpeek, hc₁⟩ := peek_at_cons hc
  obtain ⟨c₂, htake, hc₂, -⟩ := take?_at_cons hc₁
  refine ⟨c₂, ?_, hc₂⟩
  unfold skipBlanksRound
  rw [bind_of_ok hpeek]
  simp only [hd, if_true]
  rw [bind_of_ok htake]
  rfl

/-- Blanks may be skipped one at a time. -/
theorem skipBlanks_blank {d : Char} {ds : List Char} (hd : isBlank d = true)
    (hc : c.At q p (d :: ds) none) :
    ∃ c', skipBlanks c = skipBlanks c' ∧ c'.At q (p.advance d) ds none := by
  obtain ⟨c', hround, hc'⟩ := skipBlanksRound_blank hd hc
  refine ⟨c', ?_, hc'⟩
  exact loop_of_more (τ := Cursor) tracks_skipBlanksRound (fun _ _ _ _ h => h.2) hc hround

/-- **Blanks go on after a newline**, which is a blank itself. -/
theorem skipBlanks_goesOn : GoesOn (τ := Cursor) q text skipBlanks := by
  intro p cs s c u hs hc hres hunread
  induction cs generalizing p s c with
  | nil =>
    -- The newline is one more blank.
    obtain ⟨c', hskip, hc'⟩ := skipBlanks_blank (by decide) hc
    exact ⟨c', hc', hskip⟩
  | cons d ds ih =>
    by_cases hd : isBlank d = true
    · obtain ⟨s₁, hskip₁, hs₁⟩ := skipBlanks_blank hd hs
      obtain ⟨c₁, hskip, hc₁⟩ := skipBlanks_blank hd hc
      obtain ⟨c', hc', hgoes⟩ := ih (p.advance d) s₁ c₁ hs₁ hc₁ (hskip₁.symm.trans hres)
      exact ⟨c', hc', hskip.trans hgoes⟩
    · obtain ⟨_, rest, _, hu, hstays⟩ := tracks_skipBlanks.of_ok hs hres
      have hrest : rest = d :: ds := hstays fun e he => by
        cases he
        exact Bool.eq_false_iff.mpr hd
      rw [hu.unread, hrest] at hunread
      cases hunread

/-! ## Lines -/

/-- A character of a line is taken by a round, and a newline ends it. -/
theorem skipLineRound_cons {d : Char} {ds : List Char} (hc : c.At q p (d :: ds) none) :
    ∃ c', skipLineRound () c = .ok (if d = '\n' then .inr () else .inl ()) c' ∧
      c'.At q (p.advance d) ds none := by
  obtain ⟨c₁, htake, hc₁, -⟩ := take?_at_cons hc
  refine ⟨c₁, ?_, hc₁⟩
  unfold skipLineRound
  rw [bind_of_ok htake]
  simp only
  split
  · rfl
  · rfl

theorem skipLine_newline {ds : List Char} (hc : c.At q p ('\n' :: ds) none) :
    ∃ c', skipLine c = .ok () c' ∧ c'.At q (p.advance '\n') ds none := by
  obtain ⟨c', hround, hc'⟩ := skipLineRound_cons hc
  exact ⟨c', loop_of_done (τ := Cursor) hround, hc'⟩

/-- A line may be skipped one character at a time. -/
theorem skipLine_other {d : Char} {ds : List Char} (hd : d ≠ '\n') (hc : c.At q p (d :: ds) none) :
    ∃ c', skipLine c = skipLine c' ∧ c'.At q (p.advance d) ds none := by
  obtain ⟨c', hround, hc'⟩ := skipLineRound_cons hc
  rw [if_neg hd] at hround
  refine ⟨c', ?_, hc'⟩
  exact loop_of_more (τ := Cursor) tracks_skipLineRound (fun _ _ _ _ h => h.2) hc hround

/-- A line leaves off where it does alone, or if that is the end, after the newline. -/
theorem skipLine_append (hs : u.At q p cs none) (hc : c.At q p (cs ++ '\n' :: text) none) :
    ∃ u' c' front rest, skipLine u = .ok () u' ∧ skipLine c = .ok () c' ∧ cs = front ++ rest ∧
      u'.At q (p.advanceAll front) rest none ∧ Resumes q p front rest text c' := by
  induction cs generalizing p u c with
  | nil =>
    obtain ⟨c', hskip, hc'⟩ := skipLine_newline hc
    refine ⟨u, c', [], [], ?_, hskip, rfl, hs, .inr ⟨rfl, hc'⟩⟩
    refine loop_of_done (τ := Cursor) (?_ : skipLineRound () u = .ok (.inr ()) u)
    unfold skipLineRound
    rw [bind_of_ok (take?_at_nil hs)]
    rfl
  | cons d ds ih =>
    by_cases hd : d = '\n'
    · subst hd
      obtain ⟨u', hskip₁, hu'⟩ := skipLine_newline hs
      obtain ⟨c', hskip₂, hc'⟩ := skipLine_newline hc
      exact ⟨u', c', ['\n'], ds, hskip₁, hskip₂, rfl, hu', .inl hc'⟩
    · obtain ⟨u₁, hskip₁, hu₁⟩ := skipLine_other hd hs
      obtain ⟨c₁, hskip₂, hc₁⟩ := skipLine_other hd hc
      obtain ⟨u', c', front, rest, hu', hc', rfl, hat⟩ := ih hu₁ hc₁
      exact ⟨u', c', d :: front, rest, hskip₁.trans hu', hskip₂.trans hc', rfl, hat⟩

/-- What a round of `skipComments` does after blanks. -/
def commentRound (starts : List Char) : CursorM (Unit ⊕ Unit) := do
  match ← peek with
  | none => return .inr ()
  | some c =>
    if starts.contains c then
      skipLine
      return .inl ()
    else return .inr ()

/-- A comment is taken to the end of its line. -/
theorem commentRound_start {starts : List Char} {d : Char} {ds : List Char} (hd : d ∈ starts)
    (hc : c.At q p (d :: ds) none) :
    ∃ c₁, c₁.At q p (d :: ds) none ∧ ∀ c₂, skipLine c₁ = .ok () c₂ →
      commentRound starts c = .ok (.inl ()) c₂ := by
  obtain ⟨c₁, hpeek, hc₁⟩ := peek_at_cons hc
  refine ⟨c₁, hc₁, fun c₂ hline => ?_⟩
  unfold commentRound
  rw [bind_of_ok hpeek]
  simp only [List.contains_iff_mem.mpr hd, if_true]
  rw [bind_of_ok hline]
  rfl

/-- Nothing is taken where no comment starts. -/
theorem commentRound_other {starts : List Char} {d : Char} {ds : List Char} (hd : d ∉ starts)
    (hc : c.At q p (d :: ds) none) :
    ∃ c₁, c₁.At q p (d :: ds) none ∧ commentRound starts c = .ok (.inr ()) c₁ := by
  obtain ⟨c₁, hpeek, hc₁⟩ := peek_at_cons hc
  refine ⟨c₁, hc₁, ?_⟩
  unfold commentRound
  rw [bind_of_ok hpeek]
  simp only [List.contains_iff_mem, hd, if_false]
  rfl

/-- A comment that the text ends in goes on to the newline that follows it. -/
theorem commentRound_goesOn (starts : List Char) :
    AfterGoesOn (τ := Cursor) q text (commentRound starts) := by
  intro p cs s c r u hs hc h
  cases cs with
  | nil =>
    have hround : commentRound starts s = .ok (.inr ()) s := bind_of_ok (peek_at_nil hs)
    cases hround.symm.trans h
    exact .inl ⟨rfl, fun h => absurd rfl h⟩
  | cons d ds =>
    by_cases hd : d ∈ starts
    · obtain ⟨s₁, hs₁, hround₁⟩ := commentRound_start hd hs
      obtain ⟨c₁, hc₁, hround₂⟩ := commentRound_start hd hc
      obtain ⟨s₂, c₂, front, rest, hline₁, hline₂, hds, hs₂, hresumes⟩ := skipLine_append hs₁ hc₁
      cases (hround₁ s₂ hline₁).symm.trans h
      exact .inr ⟨rfl, List.cons_ne_nil d ds, c₂, front, rest, hds, hs₂, hresumes,
        hround₂ c₂ hline₂, fun _ => rfl⟩
    · obtain ⟨s₁, hs₁, hround⟩ := commentRound_other hd hs
      cases hround.symm.trans h
      exact .inl ⟨rfl, fun hcs => hs₁.unread ▸ hcs⟩

/-- **Blanks and comments go on after a newline.** -/
theorem skipComments_goesOn (starts : List Char) :
    GoesOn (τ := Cursor) q text (skipComments starts) := by
  have hround : RoundGoesOn (τ := Cursor) q text (skipCommentsRound starts) :=
    (commentRound_goesOn starts).round skipBlanks_goesOn (fun _ _ => tracks_skipBlanks)
      fun _ _ _ _ => rfl
  exact RoundGoesOn.loop (tracks_skipCommentsRound starts) (fun _ _ _ _ h => h.2) hround

end Lexeme

namespace Dialect

/-! ## Scheme -/

namespace Scheme

variable {p : Pos} {ds text : List Char} {s s' : Session Unit} {c : Cursor} {n : Nested Unit}

theorem onCursor_bind {α β : Type} {x : CursorM β} {f : β → ReadM Unit α} {b : β} {c₁ : Cursor}
    (h : x s.cursor = .ok b c₁) :
    (ReadM.onCursor x >>= f) s = f b { s with cursor := c₁ } :=
  bind_of_ok (Tracks.lift_of_ok (τ := Session Unit) h)

/-- A line that is a comment. -/
theorem sharpRound_bang (hs : s.cursor.At schemeLexicon.isAtomChar p ('#' :: '!' :: ds) none) :
    ∃ c₁, c₁.At schemeLexicon.isAtomChar (p.advance '#') ('!' :: ds) none ∧
      ∀ c₂, Lexeme.skipLine c₁ = .ok () c₂ →
        sharpRound n s = .ok (.inl ()) { s with cursor := c₂ } := by
  obtain ⟨c₁, htake, hc₁, -⟩ := Cursor.take?_at_cons hs
  obtain ⟨c₂, hpeek, hc₂⟩ := Cursor.peek_at_cons hc₁
  refine ⟨c₂, hc₂, fun c₃ hline => ?_⟩
  refine (onCursor_bind rfl).trans ((onCursor_bind htake).trans ((onCursor_bind hpeek).trans ?_))
  exact onCursor_bind hline

/-- A comment that begins with a sharp sign leaves off where it does alone, or if that is the end,
perhaps after the newline. -/
theorem sharpRound_append (hn : ∀ t, Nested.Tracked schemeLexicon.isAtomChar t n n)
    (hs : s.cursor.At schemeLexicon.isAtomChar p ('#' :: ds) none)
    (hc : c.At schemeLexicon.isAtomChar p ('#' :: ds ++ '\n' :: text) none)
    (h : sharpRound n s = .ok (.inl ()) s') :
    ∃ c' front rest, '#' :: ds = front ++ rest ∧
      s'.cursor.At schemeLexicon.isAtomChar (p.advanceAll front) rest none ∧
      Resumes schemeLexicon.isAtomChar p front rest text c' ∧
      sharpRound n { s with cursor := c } = .ok (.inl ()) { s' with cursor := c' } := by
  have htracks := tracks_sharpRound (hn { more := '\n' :: text }) p ds s c hs hc
  rw [h] at htracks
  obtain ⟨front, rest, hds, hs', -, hsecond⟩ := htracks
  by_cases hbang : ds.head? = some '!'
  · -- A line may end with the text; then the newline that follows belongs to it.
    obtain ⟨es, rfl⟩ : ∃ es, ds = '!' :: es := by
      cases ds with
      | nil => cases hbang
      | cons e es => exact ⟨es, by rw [Option.some.inj hbang]⟩
    obtain ⟨s₁, hs₁, hround₁⟩ := sharpRound_bang (n := n) hs
    obtain ⟨c₁, hc₁, hround₂⟩ := sharpRound_bang (n := n) (s := { s with cursor := c }) hc
    obtain ⟨s₂, c₂, line, rest', hline₁, hline₂, hes, hs₂, hresumes⟩ :=
      Lexeme.skipLine_append hs₁ hc₁
    cases (hround₁ s₂ hline₁).symm.trans h
    exact ⟨c₂, '#' :: line, rest', congrArg (List.cons '#') hes, hs₂, hresumes, hround₂ c₂ hline₂⟩
  · -- Anything else ends the same before a newline.
    have hstops : ({ more := '\n' :: text } : Twin).Stops schemeLexicon.isAtomChar rest :=
      ⟨'\n', by simp, Lexicon.isAtomChar_newline⟩
    obtain ⟨c', hround₂, hc'⟩ := hsecond (.inr ⟨rfl, hstops, fun h => absurd h hbang⟩)
    exact ⟨c', front, rest, hds, hs', .inl hc', hround₂⟩

/-- A reader that keeps the surroundings of a session leaves them whatever its place. -/
theorem eq_of_keeps {α : Type} {x : ReadM Unit α} (hx : SExpr.Keeps x) {a : α}
    (h : x s = .ok a s') (c : Cursor) :
    ({ s' with cursor := c } : Session Unit) = { s with cursor := c } := by
  rw [hx.eq_moved_of_ok h]
  rfl

/-- What a round of `trivia` does after blanks and comments. -/
def afterComments (n : Nested Unit) : ReadM Unit (Unit ⊕ Unit) := do
  if (← Cursor.peek) = some '#' then sharpRound n else return .inr ()

/-- Comments of Scheme go on after a newline, those in bars and those that leave out a value too. -/
theorem afterComments_goesOn (hn : ∀ t, Nested.Tracked schemeLexicon.isAtomChar t n n)
    (hkeeps : n.Keeps) : AfterGoesOn schemeLexicon.isAtomChar text (afterComments n) := by
  intro p cs s c r u hs hc h
  cases cs with
  | nil =>
    have hround : afterComments n s = .ok (.inr ()) s := onCursor_bind (Cursor.peek_at_nil hs)
    cases hround.symm.trans h
    exact .inl ⟨rfl, fun h => absurd rfl h⟩
  | cons d ds =>
    obtain ⟨s₁, hpeek₁, hs₁⟩ := Cursor.peek_at_cons hs
    obtain ⟨c₁, hpeek₂, hc₁⟩ := Cursor.peek_at_cons hc
    have hround₁ : afterComments n s = (if some d = some '#' then sharpRound n else pure (.inr ()))
      { s with cursor := s₁ } := onCursor_bind hpeek₁
    have hround₂ : afterComments n { s with cursor := c }
        = (if some d = some '#' then sharpRound n else pure (.inr ())) { s with cursor := c₁ } :=
      onCursor_bind hpeek₂
    by_cases hd : d = '#'
    · subst hd
      have h : sharpRound n { s with cursor := s₁ } = .ok r u := hround₁.symm.trans h
      -- Either no comment opens here and the text is not over, or one has been taken.
      cases r with
      | inr a =>
        obtain ⟨_, rest, -, hu, -, hleft⟩ := (tracks_sharpRound (hn {}) p ds).of_ok hs₁ h
        exact .inl ⟨rfl, fun _ => hu.unread ▸ hleft rfl⟩
      | inl a =>
        obtain ⟨c', front, rest, hds, hu, hresumes, hsecond⟩ :=
          sharpRound_append (s := { s with cursor := s₁ }) hn hs₁ hc₁ h
        have hset := eq_of_keeps (sharpRound_keeps hkeeps) h
        rw [hset c'] at hsecond
        exact .inr ⟨rfl, List.cons_ne_nil '#' ds, c', front, rest, hds, hu, hresumes,
          hround₂.trans hsecond, hset⟩
    · have h : (.ok (.inr ()) { s with cursor := s₁ } : EStateM.Result Failure _ _) = .ok r u := by
        rw [← h, hround₁, if_neg (by simpa using hd)]
        rfl
      cases h
      exact .inl ⟨rfl, fun hcs => hs₁.unread ▸ hcs⟩

/-- **Blanks and comments of Scheme go on after a newline.** -/
theorem trivia_goesOn (hn : ∀ t, Nested.Tracked schemeLexicon.isAtomChar t n n) (hkeeps : n.Keeps) :
    GoesOn schemeLexicon.isAtomChar text (trivia n) := by
  have hround : RoundGoesOn schemeLexicon.isAtomChar text (triviaRound n) :=
    (afterComments_goesOn hn hkeeps).round (Lexeme.skipComments_goesOn [';']).onCursor
      (fun _ _ => Tracks.onCursor (Lexeme.tracks_skipComments [';']))
      fun s u h => eq_of_keeps (.of_local (.onCursor _)) h
  exact RoundGoesOn.loop (tracks_triviaRound (hn {})) (fun _ _ _ _ h => h.2) hround

end Scheme

/-! ## Dialects -/

variable {σ : Type} {d : Dialect σ} {n : Nested σ} {p : Pos} {cs text : List Char} {s u : Session σ}
  {c : Cursor}

/-- So do those of all dialects. -/
theorem Known.trivia_goesOn (hd : d.Known) (hn : ∀ t, Nested.Tracked d.isAtomChar t n n)
    (hkeeps : n.Keeps) : GoesOn d.isAtomChar text (d.trivia n) := by
  cases hd with
  | basic => exact Lexeme.skipBlanks_goesOn.onCursor
  | extended => exact (Lexeme.skipComments_goesOn [';']).onCursor
  | scheme => exact Scheme.trivia_goesOn hn hkeeps
  | commonLisp options => exact (Lexeme.skipComments_goesOn [';']).onCursor
  | sparql => exact (Lexeme.skipComments_goesOn [';', '#']).onCursor

/-- What moves the cursor changes nothing else. -/
theorem onCursor_eq {α : Type} {x : CursorM α} {a : α} (h : ReadM.onCursor x s = .ok a u) :
    u = { s with cursor := u.cursor } := by
  unfold ReadM.onCursor at h
  cases hx : x s.cursor with
  | ok b c₁ =>
    rw [hx] at h
    cases h
    rfl
  | error e c₁ =>
    rw [hx] at h
    cases h

/-- What comes before a token only moves the cursor. -/
theorem Known.trivia_eq (hd : d.Known) (hkeeps : n.Keeps) (h : d.trivia n s = .ok () u) :
    u = { s with cursor := u.cursor } := by
  cases hd with
  | basic => exact onCursor_eq h
  | extended => exact onCursor_eq h
  | scheme => exact (Scheme.trivia_keeps hkeeps).eq_moved_of_ok h
  | commonLisp options => exact onCursor_eq h
  | sparql => exact onCursor_eq h

/-- At the end of the text nothing changes. -/
theorem Known.token_at_nil (hd : d.Known) (hs : s.cursor.At d.isAtomChar p [] none) :
    d.token n s = .ok .ended s := by
  have hpeek := Cursor.peek_at_nil hs
  have hpeek {α : Type} {f : Option Char → ReadM σ α} :
      (ReadM.onCursor Cursor.peek >>= f) s = f none s :=
    bind_of_ok (Tracks.lift_of_ok (τ := Session σ) hpeek)
  have hbasic (l : Lexicon σ) : l.basicToken s = .ok .ended s := hpeek
  cases hd with
  | basic => exact hbasic _
  | extended => exact hbasic _
  | scheme => exact hpeek.trans (hbasic _)
  | commonLisp options => exact hpeek.trans (hbasic _)
  | sparql =>
    show Sparql.token s = _
    rw [Sparql.token_def, show s.cursor.unread = [] from hs.unread]
    exact hpeek.trans (bind_of_ok (hbasic _))

/-! ## Documents -/

/-- A document ends when nothing is left after blanks and comments. -/
theorem ensures_readAllRound (hd : d.Known) (taken : List Value)
    (hs : s.cursor.At d.isAtomChar p cs none) :
    Ensures (d.readAllRound taken) s fun r u => ∀ vs, r = .inr vs →
      d.trivia (d.nested s.room) s = .ok () u ∧ u.cursor.unread = [] ∧ vs = taken.reverse := by
  have hn := hd.tracked.nested {} s.room
  show Ensures (d.item (d.nested s.room) >>= collect taken) s _
  rw [item_bind]
  refine Ensures.bind (P := fun _ s₁ => d.trivia (d.nested s.room) s = .ok () s₁)
    (fun _ _ h => h) fun _ s₁ htrivia => ReadM.ensures_here fun place => ?_
  obtain ⟨_, mid, -, hs₁, -⟩ := (hd.tracked.trivia hn p cs).of_ok hs htrivia
  refine Ensures.bind (P := fun token s₂ => d.token (d.nested s.room) s₁ = .ok token s₂)
    (fun _ _ h => h) fun token s₂ htoken => ?_
  cases token with
  | ended =>
    refine .pure fun vs hvs => ?_
    obtain ⟨_, rest, -, -, htaken⟩ := (hd.tracked.token hn _ mid).of_ok hs₁ htoken
    obtain ⟨rfl, -⟩ := htaken.eq_nil
    cases (hd.token_at_nil hs₁).symm.trans htoken
    exact ⟨htrivia, hs₁.unread, (Sum.inr.inj hvs).symm⟩
  | opener b =>
    exact Ensures.bind (P := fun _ _ => True) (fun _ _ _ => trivial) fun _ _ _ => .pure nofun
  | closer b => exact ReadM.ensures_stray
  | value v => exact .pure nofun

/-- **The second document** goes on where the first one has come to its end. -/
theorem loop_readAllRound_append {taken vs : List Value} (hd : d.Known)
    (hs : s.cursor.At d.isAtomChar p cs none)
    (hc : c.At d.isAtomChar p (cs ++ '\n' :: text) none)
    (h : ReadM.loop d.readAllRound taken s = .ok vs u) :
    ∃ c', c'.At d.isAtomChar (p.advanceAll (cs ++ ['\n'])) text none ∧
      ReadM.loop d.readAllRound taken { s with cursor := c }
        = ReadM.loop d.readAllRound vs.reverse { u with cursor := c' } := by
  induction hlength : cs.length using Nat.strong_induction_on generalizing p cs s c taken with
  | _ k ih =>
    subst hlength
    cases hround : d.readAllRound taken s with
    | error e s₁ => cases (loop_of_error (τ := Session σ) hround).symm.trans h
    | ok r s₁ =>
      cases r with
      | inl taken' =>
        have htracks := hd.tracked.readAllRound (t := { more := '\n' :: text }) taken p cs s c hs hc
        rw [hround] at htracks
        obtain ⟨front, rest, rfl, hs₁, hpost, hsecond⟩ := htracks
        obtain ⟨c₁, hsecond, hc₁⟩ := hsecond (.inr ⟨rfl, '\n', by simp, Lexicon.isAtomChar_newline⟩)
        rw [hd.tracked.loop_readAllRound_of_more hs hround] at h
        obtain ⟨c', hc', hrest⟩ := ih rest.length (hpost.1 taken' rfl) hs₁ hc₁ h rfl
        refine ⟨c', ?_, ?_⟩
        · rwa [List.append_assoc, Pos.advanceAll_append]
        · have hloop :=
            hd.tracked.loop_readAllRound_of_more (s := { s with cursor := c }) hc hsecond
          exact hloop.trans hrest
      | inr vs' =>
        -- Only trivia are left of the first document: they go on into the second one.
        cases (loop_of_done (τ := Session σ) hround).symm.trans h
        obtain ⟨htrivia, hunread, rfl⟩ := ensures_readAllRound hd taken hs _ _ hround vs rfl
        have hkeeps := hd.uniform.nested s.room
        have hu := hd.trivia_eq hkeeps htrivia
        obtain ⟨c', hc', hgoes⟩ := hd.trivia_goesOn (fun t => hd.tracked.nested t s.room) hkeeps
          p cs s c u hs hc htrivia hunread
        have hround₂ : d.readAllRound taken { s with cursor := c }
            = d.readAllRound taken { s with cursor := c' } := by
          rw [readAllRound_eq, readAllRound_eq, item_bind, item_bind]
          exact bind_congr_left hgoes
        have hset : ({ u with cursor := c' } : Session σ) = { s with cursor := c' } := by rw [hu]
        refine ⟨c', hc', ?_⟩
        rw [hset, List.reverse_reverse]
        exact loop_congr (τ := Session σ) hd.tracked.readAllRound (fun _ _ _ _ h => h.1) hc hc'
          hround₂

/-- A round does the same whatever was taken before. -/
theorem readAllRound_append (d : Dialect σ) (taken before : List Value) (s : Session σ) :
    d.readAllRound (taken ++ before) s =
      match d.readAllRound taken s with
      | .ok (.inl taken') u => .ok (.inl (taken' ++ before)) u
      | .ok (.inr vs) u => .ok (.inr (before.reverse ++ vs)) u
      | .error e u => .error e u := by
  rw [readAllRound_eq, readAllRound_eq]
  cases hitem : d.item (d.nested s.room) s with
  | error e u => rw [bind_of_error hitem, bind_of_error hitem]
  | ok item u =>
    rw [bind_of_ok hitem, bind_of_ok hitem]
    cases item with
    | value v => rfl
    | closer b place => rfl
    | ended place =>
      show EStateM.Result.ok (Sum.inr (taken ++ before).reverse) u = _
      rw [List.reverse_append]
      rfl

/-- Values that have been read before are put before those that follow. -/
theorem loop_readAllRound_before (d : Dialect σ) (xs : List (Char × Pos)) (taken before : List Value)
    (s : Session σ) :
    SExpr.loop d.readAllRound (ReadM.onCursor Cursor.stuck) xs (taken ++ before) s =
      match SExpr.loop d.readAllRound (ReadM.onCursor Cursor.stuck) xs taken s with
      | .ok vs u => .ok (before.reverse ++ vs) u
      | .error e u => .error e u := by
  -- The induction is on the characters that bound the rounds of the loop.
  induction xs generalizing taken s with
  | nil =>
    unfold SExpr.loop
    rw [readAllRound_append]
    cases d.readAllRound taken s with
    | error e u => rfl
    | ok r u =>
      cases r with
      | inl taken' => rfl
      | inr vs => rfl
  | cons x xs ih =>
    unfold SExpr.loop
    rw [readAllRound_append]
    cases d.readAllRound taken s with
    | error e u => rfl
    | ok r u =>
      cases r with
      | inl taken' => exact ih taken' u
      | inr vs => rfl

/-- All values are read behind those read before. -/
theorem readAll_before_of_ok {before vs : List Value} (h : d.readAll s = .ok vs u) :
    ReadM.loop d.readAllRound before s = .ok (before.reverse ++ vs) u := by
  have hbefore := loop_readAllRound_before d s.cursor.located [] before s
  rw [show SExpr.loop d.readAllRound (ReadM.onCursor Cursor.stuck) s.cursor.located [] s = _ from h]
    at hbefore
  exact hbefore

/-- A failure does not depend on the values read before. -/
theorem readAll_before_of_error {before : List Value} {e : Failure} (h : d.readAll s = .error e u) :
    ReadM.loop d.readAllRound before s = .error e u := by
  have hbefore := loop_readAllRound_before d s.cursor.located [] before s
  rw [show SExpr.loop d.readAllRound (ReadM.onCursor Cursor.stuck) s.cursor.located [] s = _ from h]
    at hbefore
  exact hbefore

end Dialect

/-- A text and a newline lead to the beginning of a line. -/
theorem Pos.advanceAll_newlines (p : Pos) (cs : List Char) :
    p.advanceAll (cs ++ ['\n']) = ⟨p.line + cs.count '\n' + 1, 0⟩ := by
  induction cs generalizing p with
  | nil => rfl
  | cons c cs ih =>
    show (p.advance c).advanceAll (cs ++ ['\n']) = _
    rw [ih]
    by_cases hc : c = '\n'
    · subst hc
      rw [List.count_cons_self]
      show (⟨p.line + 1 + cs.count '\n' + 1, 0⟩ : Pos) = _
      rw [Nat.add_right_comm p.line 1, Nat.add_assoc p.line]
    · rw [List.count_cons_of_ne (by simpa using hc), Pos.advance, if_neg hc]

namespace Dialect

variable {σ : Type}

/-- What is read of a document after others of so many lines, which have the values `before`: from
what is read of it alone, what is read of all of them. -/
def After (before : List Value) (lines : Nat) :
    EStateM.Result Failure (Session σ) (List Value) →
      EStateM.Result Failure (Session σ) (List Value) → Prop
  | .ok vs u, all => ∃ c, all = .ok (before ++ vs) { u with cursor := c }
  | .error e u, all => ∃ c, all = .error (e.down lines) { u with cursor := c }

/-- **Documents one after the other.** If a document can be read, then with a newline and another
document after it the two are read as they are alone, the second one with what the first one has
left in memory. A failure of the second one is reported further down, by as many lines as come
before. -/
theorem readAll_append (d : Dialect σ) (hd : d.Known) (memory : σ) (limit : Nat)
    (text₁ text₂ : List Char) (vs₁ : List Value) (u : Session σ)
    (h : d.readAll (.fresh text₁ none memory limit) = .ok vs₁ u) :
    After vs₁ (1 + text₁.count '\n') (d.readAll (.fresh text₂ none u.memory limit))
      (d.readAll (.fresh (text₁ ++ '\n' :: text₂) none memory limit)) := by
  have hfirst := Session.fresh_at d.isAtomChar text₁ none memory limit
  have hboth := Session.fresh_at d.isAtomChar (text₁ ++ '\n' :: text₂) none memory limit
  have hsecond := Session.fresh_at d.isAtomChar text₂ none u.memory limit
  obtain ⟨c, hc, hloop⟩ := loop_readAllRound_append hd hfirst hboth h
  have hplace : Pos.start.advanceAll (text₁ ++ ['\n']) = Pos.start.down (1 + text₁.count '\n') := by
    rw [Pos.advanceAll_newlines]
    show (⟨0 + text₁.count '\n' + 1, 0⟩ : Pos) = ⟨0 + (1 + text₁.count '\n'), 0⟩
    rw [Nat.zero_add, Nat.zero_add, Nat.add_comm]
  rw [hplace] at hc
  -- Nothing but the place and the memory has changed.
  have hu : ({ u with cursor := c } : Session σ)
      = { Session.fresh text₂ none u.memory limit with cursor := c } := by
    rw [hd.uniform.readAll_keeps.eq_moved_of_ok h]
    rfl
  rw [hu] at hloop
  have htracks := hd.tracked.readAll (t := { lines := 1 + text₁.count '\n' })
    (.fresh text₂ none u.memory limit) c hsecond (by rw [List.append_nil]; exact hc)
  cases hres : d.readAll (.fresh text₂ none u.memory limit) with
  | ok vs₂ u₂ =>
    rw [hres] at htracks
    obtain ⟨_, _, -, -, -, htracks⟩ := htracks
    obtain ⟨c', hread, -⟩ := htracks (.inl ⟨rfl, rfl, rfl⟩)
    have hread := hloop.trans (readAll_before_of_ok hread)
    rw [List.reverse_reverse] at hread
    exact ⟨c', hread⟩
  | error e u₂ =>
    rw [hres] at htracks
    obtain ⟨_, _, _, -, -, htracks⟩ := htracks
    obtain ⟨c', hread, -⟩ := htracks ⟨rfl, rfl, rfl⟩
    exact ⟨c', hloop.trans (readAll_before_of_error hread)⟩

/-- A definition of the first document is used in the second one, which has a bracket too many. -/
theorem readAll_append_sparql :
    ∃ vs₁ u, sparql.readAll (.fresh "(prefix ((ex: <a:>)) ex:b) ;".toList none {} 9) = .ok vs₁ u ∧
      After vs₁ (1 + "(prefix ((ex: <a:>)) ex:b) ;".toList.count '\n')
        (sparql.readAll (.fresh "ex:c )".toList none u.memory 9))
        (sparql.readAll (.fresh ("(prefix ((ex: <a:>)) ex:b) ;".toList ++ '\n' :: "ex:c )".toList)
          none {} 9)) := by
  have hok : (match sparql.readAll (.fresh "(prefix ((ex: <a:>)) ex:b) ;".toList none {} 9) with
      | .ok _ _ => true
      | .error _ _ => false) = true := by decide +kernel
  cases hread : sparql.readAll (.fresh "(prefix ((ex: <a:>)) ex:b) ;".toList none {} 9) with
  | error e u =>
    rw [hread] at hok
    cases hok
  | ok vs₁ u =>
    exact ⟨vs₁, u, rfl, readAll_append sparql .sparql {} 9 _ "ex:c )".toList vs₁ u hread⟩

end Dialect

end SExpr
