import SExpr.Proofs.Tracks.Structure

/-!
# The surroundings of a session

What is open around a session, its limit and whether it has failed are its surroundings; its place
and what it remembers are what reading changes.

* **`Local`**: an action does the same in all surroundings. So do all tokens in which nothing is
  nested.
* **`Keeps`**: an action leaves the surroundings as they were, successful or not. So do all readers.
* **`Alike`**: two actions do the same in surroundings that differ, unless the first one gives up.
  So do readers that differ only in how they read what is nested, if they read that alike.
-/

namespace SExpr

open ReadM

variable {σ α β : Type}

/-- The surroundings of `u`, with the place and the memory of `s`. -/
def Session.moved (u s : Session σ) : Session σ := { u with cursor := s.cursor, memory := s.memory }

/-- What an action has left, in the surroundings of `u`. -/
def Session.movedResult (u : Session σ) :
    EStateM.Result Failure (Session σ) α → EStateM.Result Failure (Session σ) α
  | .ok a s => .ok a (u.moved s)
  | .error e s => .error e (u.moved s)

/-- The action does the same in all surroundings. -/
def Local (x : ReadM σ α) : Prop := ∀ u s : Session σ, x (u.moved s) = u.movedResult (x s)

/-- The action leaves the surroundings as they were. -/
def Keeps (x : ReadM σ α) : Prop := ∀ s : Session σ, x s = s.movedResult (x s)

/-! ## Rules -/

namespace Local

theorem pure (a : α) : Local (Pure.pure a : ReadM σ α) := fun _ _ => rfl

theorem fail (cause : Cause) (p : Pos) : Local (ReadM.fail cause p : ReadM σ α) := fun _ _ => rfl

/-- What only moves the cursor does not see the surroundings. -/
theorem onCursor (x : CursorM α) : Local (ReadM.onCursor x : ReadM σ α) := by
  intro u s
  have hcursor : (u.moved s).cursor = s.cursor := rfl
  unfold ReadM.onCursor
  rw [hcursor]
  cases x s.cursor with
  | ok a c => rfl
  | error e c => rfl

theorem onMemory (f : σ → α × σ) : Local (ReadM.onMemory f) := fun _ _ => rfl

/-- Local actions follow one another. -/
theorem bind {x : ReadM σ β} {f : β → ReadM σ α} (hx : Local x) (hf : ∀ b, Local (f b)) :
    Local (x >>= f) := by
  intro u s
  have hx := hx u s
  cases hres : x s with
  | ok b s' =>
    rw [hres] at hx
    rw [bind_of_ok hres, bind_of_ok hx, hf b u s']
  | error e s' =>
    rw [hres] at hx
    rw [bind_of_error hres, bind_of_error hx]
    rfl

end Local

/-! ## Readers side by side -/

/-- Two actions do the same to the place and the memory, each in surroundings of its own, which it
leaves as they were. The first one may give up with a failure that `out` allows; then nothing is
said of the second one. -/
def Alike (out : Failure → Prop) (u₁ u₂ : Session σ) (x₁ x₂ : ReadM σ α) : Prop :=
  ∀ s, (∃ e s', x₁ (u₁.moved s) = .error e s' ∧ out e) ∨
    ∃ r, x₁ (u₁.moved s) = u₁.movedResult r ∧ x₂ (u₂.moved s) = u₂.movedResult r

/-- The session with one more frame open. -/
def Session.opened (frame : Frame) (u : Session σ) : Session σ :=
  { u with context := frame :: u.context }

namespace Alike

variable {out : Failure → Prop} {u₁ u₂ : Session σ}

theorem of_local {x : ReadM σ α} (hx : Local x) : Alike out u₁ u₂ x x :=
  fun s => .inr ⟨x s, hx u₁ s, hx u₂ s⟩

theorem pure (a : α) : Alike out u₁ u₂ (Pure.pure a) (Pure.pure a) := of_local (.pure a)

theorem onCursor (x : CursorM α) : Alike out u₁ u₂ (ReadM.onCursor x) (ReadM.onCursor x) :=
  of_local (.onCursor x)

theorem fail (cause : Cause) (p : Pos) :
    Alike out u₁ u₂ (ReadM.fail cause p : ReadM σ α) (ReadM.fail cause p) :=
  of_local (.fail cause p)

/-- Where the first action gives up, the second one may do what it likes. -/
theorem of_out {cause : Cause} {p : Pos} {x₂ : ReadM σ α} (h : out ⟨cause, p⟩) :
    Alike out u₁ u₂ (ReadM.fail cause p) x₂ :=
  fun s => .inl ⟨⟨cause, p⟩, u₁.moved s, rfl, h⟩

/-- What does not match is told by what is open, which has to be the same for both. -/
theorem stray (hcontext : u₁.context = u₂.context) (b : Bracket) (p : Pos) :
    Alike out u₁ u₂ (ReadM.stray b p : ReadM σ α) (ReadM.stray b p) := by
  intro s
  have hinnermost : (u₂.moved s).innermost? = (u₁.moved s).innermost? := by
    show u₂.context.findSome? _ = u₁.context.findSome? _
    rw [hcontext]
  refine .inr ⟨.error ⟨.strayCloser (u₁.moved s).innermost? b, p⟩ s, rfl, ?_⟩
  show EStateM.Result.error (⟨.strayCloser (u₂.moved s).innermost? b, p⟩ : Failure) _ = _
  rw [hinnermost]
  rfl

/-- Alike actions follow one another, up to the failure that stops the first. -/
theorem bind {x₁ x₂ : ReadM σ β} {f₁ f₂ : β → ReadM σ α} (hx : Alike out u₁ u₂ x₁ x₂)
    (hf : ∀ b, Alike out u₁ u₂ (f₁ b) (f₂ b)) : Alike out u₁ u₂ (x₁ >>= f₁) (x₂ >>= f₂) := by
  intro s
  rcases hx s with ⟨e, s', hout, he⟩ | ⟨r, h₁, h₂⟩
  · exact .inl ⟨e, s', bind_of_error hout, he⟩
  · cases r with
    | ok b s' =>
      rw [bind_of_ok h₁, bind_of_ok h₂]
      exact hf b s'
    | error e s' => exact .inr ⟨.error e s', bind_of_error h₁, bind_of_error h₂⟩

/-- To read within a list opens it in both surroundings and closes it again. -/
theorem within {x₁ x₂ : ReadM σ α} {frame : Frame}
    (hx : Alike out (u₁.opened frame) (u₂.opened frame) x₁ x₂) :
    Alike out u₁ u₂ (ReadM.within frame x₁) (ReadM.within frame x₂) := by
  intro s
  rcases hx s with ⟨e, s', hout, he⟩ | ⟨r, h₁, h₂⟩
  · exact .inl ⟨e, _, Tracks.within_of_error (s := u₁.moved s) hout, he⟩
  · cases r with
    | ok a s' =>
      exact .inr ⟨.ok a s', Tracks.within_of_ok (s := u₁.moved s) h₁,
        Tracks.within_of_ok (s := u₂.moved s) h₂⟩
    | error e s' =>
      exact .inr ⟨.error e s', Tracks.within_of_error (s := u₁.moved s) h₁,
        Tracks.within_of_error (s := u₂.moved s) h₂⟩

/-- Both loops have the same allowance, as they stand at the same place. -/
theorem loop {step₁ step₂ : β → ReadM σ (β ⊕ α)}
    (hstep : ∀ b, Alike out u₁ u₂ (step₁ b) (step₂ b)) (b : β) :
    Alike out u₁ u₂ (ReadM.loop step₁ b) (ReadM.loop step₂ b) := by
  have hrounds (xs : List (Char × Pos)) : ∀ b, Alike out u₁ u₂
      (SExpr.loop step₁ (ReadM.onCursor Cursor.stuck) xs b)
      (SExpr.loop step₂ (ReadM.onCursor Cursor.stuck) xs b) := by
    induction xs with
    | nil =>
      intro b
      rw [loop_eq_bind step₁, loop_eq_bind step₂]
      refine (hstep b).bind fun r => ?_
      cases r with
      | inr a => exact .pure a
      | inl b' => exact .onCursor _
    | cons x xs ih =>
      intro b
      rw [loop_eq_bind step₁, loop_eq_bind step₂]
      refine (hstep b).bind fun r => ?_
      cases r with
      | inr a => exact .pure a
      | inl b' => exact ih b'
  exact fun s => hrounds s.cursor.located b s

end Alike

namespace Keeps

theorem of_local {x : ReadM σ α} (hx : Local x) : Keeps x := fun s => hx s s

/-- A successful reader has changed the place and the memory only. -/
theorem eq_moved_of_ok {x : ReadM σ α} (hx : Keeps x) {s s' : Session σ} {a : α}
    (h : x s = .ok a s') : s' = s.moved s' := by
  have hx := hx s
  rw [h] at hx
  exact (EStateM.Result.ok.inj hx).2

/-- So has a reader that fails. -/
theorem eq_moved_of_error {x : ReadM σ α} (hx : Keeps x) {s s' : Session σ} {e : Failure}
    (h : x s = .error e s') : s' = s.moved s' := by
  have hx := hx s
  rw [h] at hx
  exact (EStateM.Result.error.inj hx).2

theorem movedResult_moved (u s : Session σ) (r : EStateM.Result Failure (Session σ) α) :
    (u.moved s).movedResult r = u.movedResult r := by
  cases r <;> rfl

theorem movedResult_movedResult (u : Session σ) (r : EStateM.Result Failure (Session σ) α) :
    u.movedResult (u.movedResult r) = u.movedResult r := by
  cases r <;> rfl

/-- To leave the surroundings as they were is to be alike with oneself. -/
theorem iff_alike {x : ReadM σ α} : Keeps x ↔ ∀ u, Alike (fun _ => False) u u x x := by
  constructor
  · intro hx u s
    have hx := hx (u.moved s)
    rw [movedResult_moved] at hx
    exact .inr ⟨x (u.moved s), hx, hx⟩
  · intro hx s
    rcases hx s s with ⟨e, s', -, hout⟩ | ⟨r, hr, -⟩
    · exact hout.elim
    · show x (s.moved s) = s.movedResult (x (s.moved s))
      rw [hr, movedResult_movedResult]

end Keeps

/-! ## Tokens without anything nested -/

theorem plainAtom_local (text : List Char) (p : Pos) :
    Local (plainAtom text p : ReadM σ Value) := by
  unfold plainAtom
  split
  · exact .pure _
  · exact .fail _ _

/-- A token of the common kind is local if its literals are. -/
theorem Lexicon.basicToken_local {l : Lexicon σ} (hatom : ∀ text p, Local (l.atom text p)) :
    Local l.basicToken := by
  refine .bind (.onCursor _) fun p => .bind (.onCursor _) fun r => ?_
  split
  · exact .pure _
  · split
    · exact .bind (.onCursor _) fun _ => .pure _
    · split
      · exact .bind (.onCursor _) fun _ => .pure _
      · refine .bind (.onCursor _) fun text => ?_
        split
        · exact .bind (.onCursor _) fun c => .bind (hatom _ _) fun v => .pure _
        · exact .bind (hatom _ _) fun v => .pure _

namespace Dialect

namespace Scheme

theorem sharp_local (p : Pos) : Local (sharp p) := by
  refine .bind (.onCursor _) fun r => ?_
  split
  · exact .bind (.onCursor _) fun _ => .fail _ _
  · split
    · exact .bind (.onCursor _) fun _ => .onCursor _
    · split
      · exact .bind (.onCursor _) fun _ => .onCursor _
      · split
        · refine .bind (.onCursor _) fun text => ?_
          split
          · exact .pure _
          · exact .fail _ _
        · exact .fail _ _

theorem token_local : Local token := by
  refine .bind (.onCursor _) fun r => ?_
  split
  · exact .bind (.onCursor _) fun p => .bind (.onCursor _) fun _ =>
      .bind (sharp_local p) fun _ => .pure _
  · exact Lexicon.basicToken_local plainAtom_local

end Scheme

namespace Sparql

/-- An IRI or an operator in angle brackets. -/
theorem angle_local (p : Pos) : Local (angle p) := by
  refine .bind (.onCursor _) fun r => ?_
  split
  · exact .pure _
  · split
    · exact .pure _
    · split
      · exact .bind (.onCursor _) fun _ => .pure _
      · exact .bind (.onCursor _) fun _ => .onMemory _

/-- A datatype is local if its token is. -/
theorem datatype_local {x : ReadM Memory Token} (hx : Local x) : Local (datatype x) := by
  refine .bind (.onCursor _) fun p => .bind hx fun token => ?_
  split
  · exact .fail _ _
  · exact .fail _ _
  · exact .fail _ _
  · split
    · exact .pure _
    · exact .pure _
    · exact .fail _ _

/-- A string with what may follow it. -/
theorem quoted_local {x : ReadM Memory Iri} (hx : Local x) : Local (quoted x) := by
  refine .bind (.onCursor _) fun r => .bind (.onCursor _) fun next => ?_
  split
  · exact .bind (.onCursor _) fun _ => .bind (.onCursor _) fun _ => .onMemory _
  · refine .bind (.onCursor _) fun _ => .bind (.onCursor _) fun _ => .bind (.onCursor _) fun _ => ?_
    split
    · exact .bind hx fun _ => .onMemory _
    · exact .fail _ _
  · exact .onMemory _

theorem atom_local (text : List Char) (p : Pos) : Local (lexicon.atom text p) :=
  .onMemory (atom text)

/-- A token, given how its datatype is read. -/
theorem tokenWith_local {x : ReadM Memory Iri} (hx : Local x) : Local (tokenWith x) := by
  refine .bind (.onCursor _) fun p => .bind (.onCursor _) fun r => ?_
  split
  · exact .bind (quoted_local hx) fun _ => .pure _
  · exact .bind (quoted_local hx) fun _ => .pure _
  · exact .bind (.onCursor _) fun _ => .bind (angle_local p) fun _ => .pure _
  · refine .bind (Lexicon.basicToken_local atom_local) fun token => .bind (.onMemory _) fun _ => ?_
    split
    · exact .bind (.onMemory _) fun _ => .pure _
    · exact .pure _

/-- A token, however many times a datatype may be nested in it. -/
theorem tokenIn_local {γ : Type} (xs : List γ) : Local (tokenIn xs) := by
  -- The induction is on the characters that bound the nesting.
  induction xs with
  | nil => exact tokenWith_local (datatype_local (.pure _))
  | cons x xs ih => exact tokenWith_local (datatype_local ih)

theorem token_local : Local token := fun u s => tokenIn_local s.cursor.located u s

end Sparql

end Dialect

/-! ## Readers -/

/-- What is nested is read alike. -/
structure Nested.Alike (out : Failure → Prop) (u₁ u₂ : Session σ) (n₁ n₂ : Nested σ) : Prop where
  datum : ∀ p, SExpr.Alike out u₁ u₂ (n₁.datum p) (n₂.datum p)
  items : ∀ b p, SExpr.Alike out u₁ u₂ (n₁.items b p) (n₂.items b p)

/-- What comes before a token, and the token, are read alike by two dialects if what is nested in
them is. -/
structure Dialect.Matches (out : Failure → Prop) (u₁ u₂ : Session σ) (d₁ d₂ : Dialect σ) :
    Prop where
  trivia : ∀ {n₁ n₂}, Nested.Alike out u₁ u₂ n₁ n₂ →
    Alike out u₁ u₂ (d₁.trivia n₁) (d₂.trivia n₂)
  token : ∀ {n₁ n₂}, Nested.Alike out u₁ u₂ n₁ n₂ →
    Alike out u₁ u₂ (d₁.token n₁) (d₂.token n₂)

/-- The dialect reads alike in all surroundings. -/
def Dialect.Uniform (d : Dialect σ) : Prop := ∀ out u₁ u₂, Dialect.Matches out u₁ u₂ d d

/-- What is nested leaves the surroundings as they were. -/
structure Nested.Keeps (n : Nested σ) : Prop where
  datum : ∀ p, SExpr.Keeps (n.datum p)
  items : ∀ b p, SExpr.Keeps (n.items b p)

theorem Nested.Keeps.alike {n : Nested σ} (hn : n.Keeps) (u : Session σ) :
    Nested.Alike (fun _ => False) u u n n where
  datum p := Keeps.iff_alike.mp (hn.datum p) u
  items b p := Keeps.iff_alike.mp (hn.items b p) u

namespace Dialect

namespace Scheme

variable {out : Failure → Prop} {u₁ u₂ : Session Unit} {n n₁ n₂ : Nested Unit}

theorem sharpRound_alike (hn : Nested.Alike out u₁ u₂ n₁ n₂) :
    Alike out u₁ u₂ (sharpRound n₁) (sharpRound n₂) := by
  refine .bind (.onCursor _) fun p => .bind (.onCursor _) fun _ => .bind (.onCursor _) fun r => ?_
  split
  · exact .bind (.onCursor _) fun _ => .bind (hn.datum p) fun _ => .pure _
  · exact .bind (.onCursor _) fun _ => .pure _
  · exact .bind (.onCursor _) fun _ => .pure _

/-- Comments may hold a value that is left out, which is nested. -/
theorem trivia_alike (hn : Nested.Alike out u₁ u₂ n₁ n₂) :
    Alike out u₁ u₂ (trivia n₁) (trivia n₂) := by
  refine Alike.loop (fun u => ?_) ()
  rw [triviaRound_eq, triviaRound_eq]
  refine .bind (.onCursor _) fun _ => .bind (.onCursor _) fun r => ?_
  split
  · exact sharpRound_alike hn
  · exact .pure _

theorem sharpRound_keeps (hn : n.Keeps) : SExpr.Keeps (sharpRound n) :=
  Keeps.iff_alike.mpr fun u => sharpRound_alike (hn.alike u)

theorem trivia_keeps (hn : n.Keeps) : SExpr.Keeps (trivia n) :=
  Keeps.iff_alike.mpr fun u => trivia_alike (hn.alike u)

end Scheme

namespace CommonLisp

variable {options : Options} {out : Failure → Prop} {u₁ u₂ : Session Unit} {n₁ n₂ : Nested Unit}

theorem marked_alike (hn : Nested.Alike out u₁ u₂ n₁ n₂) (head : String) (p : Pos) :
    Alike out u₁ u₂ (marked n₁ head p) (marked n₂ head p) :=
  .bind (hn.datum p) fun _ => .pure _

/-- Common Lisp has values nested in the tokens that open with a number sign. -/
theorem sharp_alike (hn : Nested.Alike out u₁ u₂ n₁ n₂) (p : Pos) :
    Alike out u₁ u₂ (sharp options n₁ p) (sharp options n₂ p) := by
  refine .bind (.onCursor _) fun c => ?_
  split
  · exact .onCursor _
  · split
    · exact .onCursor _
    · split
      · exact .onCursor _
      · split
        · exact .onCursor _
        · split
          · exact .bind (hn.items .round p) fun _ => .pure _
          · split
            · exact marked_alike hn options.function p
            · exact .fail _ _

theorem atom_local (text : List Char) (p : Pos) : Local (atom options text p) := by
  unfold atom
  split
  · exact .pure _
  · split
    · exact .pure _
    · exact plainAtom_local text p

theorem token_alike (hn : Nested.Alike out u₁ u₂ n₁ n₂) :
    Alike out u₁ u₂ (token options n₁) (token options n₂) := by
  refine .bind (.onCursor _) fun p => .bind (.onCursor _) fun r => ?_
  split
  · exact .bind (.onCursor _) fun _ => .bind (sharp_alike hn p) fun _ => .pure _
  · exact .bind (.onCursor _) fun _ => .bind (.onCursor _) fun _ => .pure _
  · exact .bind (.onCursor _) fun _ => .bind (marked_alike hn options.quote p) fun _ => .pure _
  · exact .of_local (Lexicon.basicToken_local atom_local)

end CommonLisp

/-- Every dialect there is reads alike in all surroundings. -/
theorem Known.uniform {d : Dialect σ} (hd : d.Known) : d.Uniform := by
  intro out u₁ u₂
  cases hd with
  | basic =>
    exact ⟨fun _ => .onCursor _, fun _ => .of_local (Lexicon.basicToken_local plainAtom_local)⟩
  | extended =>
    exact ⟨fun _ => .onCursor _, fun _ => .of_local (Lexicon.basicToken_local plainAtom_local)⟩
  | scheme => exact ⟨Scheme.trivia_alike, fun _ => .of_local Scheme.token_local⟩
  | commonLisp options => exact ⟨fun _ => .onCursor _, CommonLisp.token_alike⟩
  | sparql => exact ⟨fun _ => .onCursor _, fun _ => .of_local Sparql.token_local⟩

namespace Matches

variable {d₁ d₂ : Dialect σ} {out : Failure → Prop} {u₁ u₂ : Session σ} {n₁ n₂ : Nested σ}

/-- What is read alike before a token and in it is read alike as an item. -/
theorem item (hd : Matches out u₁ u₂ d₁ d₂) (hn : Nested.Alike out u₁ u₂ n₁ n₂) :
    Alike out u₁ u₂ (d₁.item n₁) (d₂.item n₂) := by
  refine .bind (hd.trivia hn) fun _ => .bind (.onCursor _) fun p => .bind (hd.token hn) fun token =>
    ?_
  split
  · exact .pure _
  · exact .bind (hn.items _ p) fun _ => .pure _
  · exact .pure _
  · exact .pure _

/-- A value in the same context: a stray bracket fails with the same frames. -/
theorem value (hd : Matches out u₁ u₂ d₁ d₂) (hn : Nested.Alike out u₁ u₂ n₁ n₂)
    (hcontext : u₁.context = u₂.context) :
    Alike out u₁ u₂ (d₁.value n₁) (d₂.value n₂) := by
  refine .bind (hd.item hn) fun item => ?_
  split
  · exact .pure _
  · exact .stray hcontext _ _
  · exact .fail _ _

/-- The items of a list. -/
theorem items (hd : Matches out u₁ u₂ d₁ d₂) (hn : Nested.Alike out u₁ u₂ n₁ n₂)
    (hcontext : u₁.context = u₂.context) (b : Bracket) (start : Pos) :
    Alike out u₁ u₂ (d₁.items n₁ b start) (d₂.items n₂ b start) := by
  refine Alike.loop (fun taken => .bind (hd.item hn) fun item => ?_) []
  split
  · exact .pure _
  · split
    · exact .pure _
    · exact .stray hcontext _ _
  · exact .fail _ _

/-- What is read with the room of the session. -/
theorem withRoom {x₁ x₂ : Nested σ → ReadM σ α}
    (hx : Alike out u₁ u₂ (x₁ (d₁.nested u₁.room)) (x₂ (d₂.nested u₂.room))) :
    Alike out u₁ u₂ (d₁.withRoom x₁) (d₂.withRoom x₂) :=
  fun s => hx s

/-- A round of the reading of all values, if they are nested alike. -/
theorem readAllRound (hd : Matches out u₁ u₂ d₁ d₂)
    (hn : Nested.Alike out u₁ u₂ (d₁.nested u₁.room) (d₂.nested u₂.room))
    (hcontext : u₁.context = u₂.context) (taken : List Value) :
    Alike out u₁ u₂ (d₁.readAllRound taken) (d₂.readAllRound taken) := by
  refine .bind (withRoom (hd.item hn)) fun item => ?_
  split
  · exact .pure _
  · exact .stray hcontext _ _
  · exact .pure _

theorem readAll (hd : Matches out u₁ u₂ d₁ d₂)
    (hn : Nested.Alike out u₁ u₂ (d₁.nested u₁.room) (d₂.nested u₂.room))
    (hcontext : u₁.context = u₂.context) : Alike out u₁ u₂ d₁.readAll d₂.readAll :=
  .loop (hd.readAllRound hn hcontext) []

/-- The next value. -/
theorem value? (hd : Matches out u₁ u₂ d₁ d₂)
    (hn : Nested.Alike out u₁ u₂ (d₁.nested u₁.room) (d₂.nested u₂.room))
    (hcontext : u₁.context = u₂.context) : Alike out u₁ u₂ d₁.value? d₂.value? := by
  refine .bind (withRoom (hd.item hn)) fun item => ?_
  split
  · exact .pure _
  · exact .stray hcontext _ _
  · exact .pure _

end Matches

namespace Uniform

variable {d : Dialect σ}

theorem alike {out : Failure → Prop} {u₁ u₂ : Session σ} (hd : d.Uniform) :
    Matches out u₁ u₂ d d := hd out u₁ u₂

/-- **What is nested** leaves the surroundings as they were. -/
theorem nested (hd : d.Uniform) (room : Nat) : (d.nested room).Keeps := by
  induction room with
  | zero => exact ⟨fun _ => .of_local (.fail _ _), fun _ _ => .of_local (.fail _ _)⟩
  | succ room ih =>
    refine ⟨fun _ => Keeps.iff_alike.mpr fun u => .within ?_,
      fun b start => Keeps.iff_alike.mpr fun u => .within ?_⟩
    · exact hd.alike.value (ih.alike _) rfl
    · exact hd.alike.items (ih.alike _) rfl b start

/-- An action that reads with the room of the session leaves the surroundings as they were if it is
alike with itself. -/
theorem keeps_of_alike {x : ReadM σ α} (hd : d.Uniform)
    (hx : ∀ u, Nested.Alike (fun _ => False) u u (d.nested u.room) (d.nested u.room) →
      Alike (fun _ => False) u u x x) : SExpr.Keeps x :=
  Keeps.iff_alike.mpr fun u => hx u ((hd.nested u.room).alike u)

theorem readAllRound_keeps (hd : d.Uniform) (taken : List Value) :
    SExpr.Keeps (d.readAllRound taken) :=
  hd.keeps_of_alike fun _ hn => hd.alike.readAllRound hn rfl taken

/-- **Reading a document** leaves the surroundings as they were. -/
theorem readAll_keeps (hd : d.Uniform) : SExpr.Keeps d.readAll :=
  hd.keeps_of_alike fun _ hn => hd.alike.readAll hn rfl

theorem value?_keeps (hd : d.Uniform) : SExpr.Keeps d.value? :=
  hd.keeps_of_alike fun _ hn => hd.alike.value? hn rfl

end Uniform

end Dialect

end SExpr
