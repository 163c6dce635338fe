import SExpr.Proofs.Tracks.Lexeme

/-!
# Where failures are reported

Some failures are reported where the reading stands when it fails, others where something began
that has not come to its end, perhaps many lines before. In either case the cause of the failure is
found at the place that is reported.

* **`Cause.Marks`**: what is left of the text where a failure for this cause is reported.
* **`Failure.Explained`**: the failure is reported at such a place of the text.
* **`Blames`**: a reading of what is left of the text fails only with failures that are explained.

The rules for `Blames` follow the text of a reader. Places that are handed on, such as that of an
opening bracket, are handed on with the failures that they explain.
-/

namespace SExpr

open HasCursor

/-! ## Places of a text -/

/-- The place in the text at which `rest` is what is left of it. -/
def Pos.IsPlaceOf (p : Pos) (text rest : List Char) : Prop :=
  ∃ front, text = front ++ rest ∧ p = Pos.start.advanceAll front

namespace Pos.IsPlaceOf

variable {p : Pos} {text rest : List Char}

theorem suffix (h : p.IsPlaceOf text rest) : rest <:+ text := by
  obtain ⟨front, rfl, -⟩ := h
  exact List.suffix_append front rest

theorem advanceAll {mid : List Char} (h : p.IsPlaceOf text (mid ++ rest)) :
    (p.advanceAll mid).IsPlaceOf text rest := by
  obtain ⟨front, rfl, rfl⟩ := h
  exact ⟨front ++ mid, (List.append_assoc ..).symm, (Pos.advanceAll_append ..).symm⟩

theorem advance {d : Char} (h : p.IsPlaceOf text (d :: rest)) :
    (p.advance d).IsPlaceOf text rest := by
  have h : p.IsPlaceOf text ([d] ++ rest) := h
  exact h.advanceAll

/-- A rest of the text is found at one place only. -/
theorem eq {p' : Pos} (h : p.IsPlaceOf text rest) (h' : p'.IsPlaceOf text rest) : p = p' := by
  obtain ⟨front, rfl, rfl⟩ := h
  obtain ⟨front', heq, rfl⟩ := h'
  rw [List.append_cancel_right heq]

end Pos.IsPlaceOf

/-! ## Causes -/

/-- What is left of the text where a failure for this cause is reported. A source that does not
break off is no cause. -/
def Cause.Marks : Cause → List Char → Prop
  | source _ _, _ => False
  | endOfInput (.close b), rest => rest.head? = some b.opening ∨ ['#', '('] <+: rest
  | endOfInput (.delimiter c), rest => rest.head? = some c
  | endOfInput .iri, rest => rest.head? = some '<'
  | endOfInput _, rest => rest = []
  | strayCloser _ got, rest => rest.head? = some got.closing
  | malformedNumber _ literal, rest => literal.toList <+: rest
  | unknownSharp c, rest => ['#', c] <+: rest
  | unclosedSymbol _, rest => rest.head? = some '|'
  | notHexDigit c, rest => rest.head? = some c
  | notCodePoint code, rest => ∃ digits, digits <+: rest ∧
      Numeral.naturalFrom? 16 0 digits = some code
  | tooDeep, rest => (∃ b : Bracket, rest.head? = some b.opening) ∨ rest.head? = some '\'' ∨
      rest.head? = some '#'
  | notDatatype _, rest => rest ≠ []

/-- The failure is reported at a place of the text where its cause is found. -/
def Failure.Explained (text : List Char) (e : Failure) : Prop :=
  ∃ rest, e.pos.IsPlaceOf text rest ∧ e.cause.Marks rest

/-- Where a list can be reported that is not closed, it can be reported that it is one too many. -/
theorem Failure.Explained.tooDeep {text : List Char} {b : Bracket} {p : Pos}
    (h : Failure.Explained text ⟨.endOfInput (.close b), p⟩) :
    Failure.Explained text ⟨.tooDeep, p⟩ := by
  obtain ⟨rest, hp, hopening | ⟨more, hsharp⟩⟩ := h
  · exact ⟨rest, hp, .inl ⟨b, hopening⟩⟩
  · refine ⟨rest, hp, .inr (.inr ?_)⟩
    rw [← hsharp]
    rfl

/-! ## Readings -/

section

variable {τ α β : Type} [HasCursor τ] {q : Char → Bool} {text cs : List Char}
  {post : α → List Char → Prop}

/-- The cursor stands before `cs`, which is what is left of the text, and knows its place. -/
def StandsBefore (q : Char → Bool) (text cs : List Char) (s : τ) : Prop :=
  ∃ p : Pos, p.IsPlaceOf text cs ∧ (cursor s).At q p cs none

/-- A reading of `cs`, which is what is left of the text: if it fails, then with a failure that is
explained by the text; and if not, then the cursor stands before a rest of which `post` holds. -/
def Blames (q : Char → Bool) (text cs : List Char) (x : EStateM Failure τ α)
    (post : α → List Char → Prop) : Prop :=
  ∀ s, StandsBefore q text cs s →
    match x s with
    | .ok a s' => ∃ rest, StandsBefore q text rest s' ∧ post a rest
    | .error e _ => e.Explained text

/-- Readings of which nothing is said but where they fail. -/
abbrev Anything {α : Type} : α → List Char → Prop := fun _ _ => True

namespace Blames

variable {x : EStateM Failure τ α}

/-- A reading that succeeds leaves the session at a place of the text. -/
theorem of_ok {s s' : τ} {a : α} (h : Blames q text cs x post) (hs : StandsBefore q text cs s)
    (hx : x s = .ok a s') : ∃ rest, StandsBefore q text rest s' ∧ post a rest := by
  have h := h s hs
  rw [hx] at h
  exact h

/-- A failure of the reading is explained by the text. -/
theorem of_error {s s' : τ} {e : Failure} (h : Blames q text cs x post)
    (hs : StandsBefore q text cs s) (hx : x s = .error e s') : e.Explained text := by
  have h := h s hs
  rw [hx] at h
  exact h

/-! ## Rules -/

/-- What is read is a rest of the text. -/
theorem intro (h : cs <:+ text → Blames q text cs x post) : Blames q text cs x post := by
  intro s hs
  have hsuffix : cs <:+ text := by
    obtain ⟨p, hp, -⟩ := hs
    exact hp.suffix
  exact h hsuffix s hs

theorem mono {post' : α → List Char → Prop} (h : Blames q text cs x post)
    (hpost : ∀ a rest, post a rest → post' a rest) : Blames q text cs x post' := by
  intro s hs
  cases hx : x s with
  | error e s' => exact h.of_error hs hx
  | ok a s' =>
    obtain ⟨rest, hs', ha⟩ := h.of_ok hs hx
    exact ⟨rest, hs', hpost a rest ha⟩

theorem pure {a : α} (h : post a cs) :
    Blames q text cs (Pure.pure a : EStateM Failure τ α) post :=
  fun _ hs => ⟨cs, hs, h⟩

theorem throw {e : Failure} (h : e.Explained text) :
    Blames q text cs (MonadExcept.throw e : EStateM Failure τ α) post :=
  fun _ _ => h

/-- What follows begins where the first part has left off. -/
theorem bind {y : EStateM Failure τ β} {f : β → EStateM Failure τ α}
    {postY : β → List Char → Prop} (hy : Blames q text cs y postY)
    (hf : ∀ b rest, postY b rest → Blames q text rest (f b) post) :
    Blames q text cs (y >>= f) post := by
  intro s hs
  cases hres : y s with
  | error e s' =>
    rw [bind_of_error hres]
    exact hy.of_error hs hres
  | ok b s' =>
    rw [bind_of_ok hres]
    obtain ⟨rest, hs', hb⟩ := hy.of_ok hs hres
    exact hf b rest hb s' hs'

/-- An action on the cursor alone. -/
theorem onCursor {x : CursorM α} (h : Blames q text cs x post) :
    Blames q text cs (lift x : EStateM Failure τ α) post := by
  intro s hs
  have hcursor : StandsBefore q text cs (cursor s) := hs
  cases hx : x (cursor s) with
  | error e c =>
    rw [Tracks.lift_of_error hx]
    exact h.of_error hcursor hx
  | ok a c =>
    rw [Tracks.lift_of_ok hx]
    obtain ⟨rest, ⟨p, hp, hat⟩, ha⟩ := h.of_ok hcursor hx
    refine ⟨rest, ⟨p, hp, ?_⟩, ha⟩
    rw [cursor_setCursor]
    exact hat

/-- The place of a session may be handed on, as a place of the text. -/
theorem here {f : Pos → EStateM Failure τ α}
    (hf : ∀ p : Pos, p.IsPlaceOf text cs → Blames q text cs (f p) post) :
    Blames q text cs (lift Cursor.here >>= f) post := by
  intro s hs
  obtain ⟨p, hp, hat⟩ := hs
  have hhere : (lift Cursor.here : EStateM Failure τ Pos) s = .ok p s := by
    rw [Tracks.lift_of_ok (show Cursor.here (cursor s) = .ok (cursor s).pos (cursor s) from rfl),
      hat.pos, setCursor_cursor]
  rw [bind_of_ok hhere]
  exact hf p hp s ⟨p, hp, hat⟩

/-- To look ahead tells the first character that is left. -/
theorem peek {f : Option Char → EStateM Failure τ α}
    (hf : Blames q text cs (f cs.head?) post) :
    Blames q text cs (lift Cursor.peek >>= f) post := by
  intro s hs
  obtain ⟨p, hp, hat⟩ := hs
  cases cs with
  | nil =>
    rw [bind_of_ok (Tracks.lift_of_ok (Cursor.peek_at_nil hat)), setCursor_cursor]
    exact hf s ⟨p, hp, hat⟩
  | cons d ds =>
    obtain ⟨c, hpeek, hc⟩ := Cursor.peek_at_cons hat
    rw [bind_of_ok (Tracks.lift_of_ok hpeek)]
    exact hf _ ⟨p, hp, by rwa [cursor_setCursor]⟩

/-- To take a character leaves the others. -/
theorem take? {f : Option Char → EStateM Failure τ α}
    (hf : Blames q text cs.tail (f cs.head?) post) :
    Blames q text cs (lift Cursor.take? >>= f) post := by
  intro s hs
  obtain ⟨p, hp, hat⟩ := hs
  cases cs with
  | nil =>
    rw [bind_of_ok (Tracks.lift_of_ok (Cursor.take?_at_nil hat)), setCursor_cursor]
    exact hf s ⟨p, hp, hat⟩
  | cons d ds =>
    obtain ⟨c, htake, hc, -⟩ := Cursor.take?_at_cons hat
    rw [bind_of_ok (Tracks.lift_of_ok htake)]
    exact hf _ ⟨p.advance d, hp.advance, by rwa [cursor_setCursor]⟩

/-- Taking a character that has to be there. If it is not, this is reported at the end. -/
theorem take {f : Char → EStateM Failure τ α} {awaited : Awaited}
    (hend : (Cause.endOfInput awaited).Marks [])
    (hf : ∀ d ds, cs = d :: ds → Blames q text ds (f d) post) :
    Blames q text cs (lift (Cursor.take awaited) >>= f) post := by
  intro s hs
  obtain ⟨p, hp, hat⟩ := hs
  cases cs with
  | nil =>
    rw [bind_of_error (Tracks.lift_of_error (Cursor.take_at_nil awaited hat))]
    exact ⟨[], hp, hend⟩
  | cons d ds =>
    obtain ⟨c, htake, hc⟩ := Cursor.take_at_cons awaited hat
    rw [bind_of_ok (Tracks.lift_of_ok htake)]
    exact hf d ds rfl _ ⟨p.advance d, hp.advance, by rwa [cursor_setCursor]⟩

/-- Putting back what was read. -/
theorem pushBack {back : List Char} {f : Unit → EStateM Failure τ α}
    (hback : ∀ d ∈ back, q d = true ∧ d ≠ '\n') (hsuffix : back ++ cs <:+ text)
    (hf : Blames q text (back ++ cs) (f ()) post) :
    Blames q text cs (lift (Cursor.pushBack back) >>= f) post := by
  intro s hs
  obtain ⟨p, hp, hat⟩ := hs
  obtain ⟨front, htext⟩ := hsuffix
  -- The cursor stands after what is put back, as the text has only one place for what is left.
  have hplace : (Pos.start.advanceAll front).IsPlaceOf text (back ++ cs) :=
    ⟨front, htext.symm, rfl⟩
  rw [hp.eq hplace.advanceAll] at hat
  obtain ⟨c, hpush, hc⟩ := Cursor.pushBack_at hback hat
  rw [bind_of_ok (Tracks.lift_of_ok hpush)]
  exact hf _ ⟨_, hplace, by rwa [cursor_setCursor]⟩

/-- What is known of a reading from comparing it with itself. -/
theorem and_tracks {need post' : α → List Char → Prop} (h : Blames q text cs x post)
    (htracks : ∀ p, Tracks q {} p [] cs x x need post') :
    Blames q text cs x fun a rest => post a rest ∧ post' a rest ∧ rest <:+ cs := by
  intro s hs
  cases hx : x s with
  | error e s' => exact h.of_error hs hx
  | ok a s' =>
    obtain ⟨rest, hs', ha⟩ := h.of_ok hs hx
    refine ⟨rest, hs', ha, ?_⟩
    obtain ⟨p, -, hat⟩ := hs
    obtain ⟨front, rest', hcs, hat', ha'⟩ := (htracks p).of_ok hat hx
    -- Both say what the cursor stands before, so they speak of the same rest.
    have hrest : rest' = rest := by
      obtain ⟨p', -, hat⟩ := hs'
      rw [← hat'.unread, hat.unread]
    rw [← hrest]
    exact ⟨ha', front, hcs.symm⟩

/-- One round of a loop, and what comes after it. -/
theorem round {step : β → EStateM Failure τ (β ⊕ α)} {next : β → EStateM Failure τ α} {b : β}
    (hstep : Blames q text cs (step b) (Shrinks cs))
    (hnext : ∀ b' rest, rest.length < cs.length → Blames q text rest (next b') Anything) :
    Blames q text cs (step b >>= fun
      | .inr a => Pure.pure a
      | .inl b' => next b') Anything := by
  refine hstep.bind fun r rest hshrinks => ?_
  cases r with
  | inr a => exact .pure trivial
  | inl b' => exact hnext b' rest (hshrinks b' rfl)

/-- **Loops.** Their rounds take characters, so that they do not come to the end of their allowance,
where they would fail for no cause. -/
theorem loop {step : β → EStateM Failure τ (β ⊕ α)}
    (hstep : ∀ b cs, Blames q text cs (step b) (Shrinks cs)) (b : β) :
    Blames q text cs (HasCursor.loop step b) Anything := by
  -- The induction is on the allowance, of which there is as much as text.
  have hrounds (xs : List Char) : ∀ b cs, cs.length ≤ xs.length →
      Blames q text cs (SExpr.loop step (lift Cursor.stuck) xs b) Anything := by
    induction xs with
    | nil =>
      intro b cs hle
      rw [loop_eq_bind]
      apply round (hstep b cs)
      intro b' rest hlt
      rw [List.length_nil] at hle
      omega
    | cons y xs ih =>
      intro b cs hle
      rw [loop_eq_bind]
      apply round (hstep b cs)
      intro b' rest hlt
      rw [List.length_cons] at hle
      exact ih b' rest (by omega)
  intro s hs
  have hunread : (cursor s).unread = cs := by
    obtain ⟨p, -, hat⟩ := hs
    exact hat.unread
  have hloop := hrounds cs b cs (Nat.le_refl _) s hs
  rw [← hunread, ← HasCursor.loop_def] at hloop
  exact hloop

end Blames

end

/-! ## Sessions -/

namespace Blames

variable {σ α : Type} {q : Char → Bool} {text cs : List Char} {post : α → List Char → Prop}

theorem onMemory {f : σ → α × σ} : Blames q text cs (ReadM.onMemory f) Anything :=
  fun _ hs => ⟨cs, hs, trivial⟩

theorem onMemory_bind {β : Type} {f : σ → β × σ} {g : β → ReadM σ α}
    (hg : ∀ b, Blames q text cs (g b) post) :
    Blames q text cs (ReadM.onMemory f >>= g) post :=
  fun s hs => hg _ { s with memory := (f s.memory).2 } hs

theorem fail {cause : Cause} {p : Pos} (h : Failure.Explained text ⟨cause, p⟩) :
    Blames q text cs (ReadM.fail cause p : ReadM σ α) post :=
  throw h

theorem stray {got : Bracket} {p : Pos}
    (h : ∀ expected, Failure.Explained text ⟨.strayCloser expected got, p⟩) :
    Blames q text cs (ReadM.stray got p : ReadM σ α) post :=
  fun s _ => h s.innermost?

/-- What explains the failures of a reading explains them with one more frame open, too. -/
theorem within {x : ReadM σ α} (h : Blames q text cs x post) (frame : Frame) :
    Blames q text cs (ReadM.within frame x) post := by
  intro s hs
  have hopened : StandsBefore q text cs { s with context := frame :: s.context } := hs
  cases hx : x { s with context := frame :: s.context } with
  | error e s' =>
    rw [Tracks.within_of_error hx]
    exact h.of_error hopened hx
  | ok a s' =>
    rw [Tracks.within_of_ok hx]
    obtain ⟨rest, hs', ha⟩ := h.of_ok hopened hx
    exact ⟨rest, hs', ha⟩

end Blames

/-! ## Lexemes -/

namespace Lexeme

open Cursor

variable {q : Char → Bool} {text cs : List Char}

/-- Blanks are skipped without a failure. -/
theorem blames_skipBlanks : Blames q text cs skipBlanks Anything := by
  refine Blames.loop (τ := Cursor) (fun u cs => ?_) ()
  have hround : Blames q text cs (skipBlanksRound u) Anything := by
    refine .peek ?_
    cases cs with
    | nil => exact .pure trivial
    | cons d ds =>
      show Blames q text (d :: ds) (if Text.isBlank d then _ else _) Anything
      split
      · exact .take? (.pure trivial)
      · exact .pure trivial
  exact (hround.and_tracks (tracks_skipBlanksRound u · cs)).mono fun _ _ h => h.2.1.2

/-- So is the rest of a line. -/
theorem blames_skipLine : Blames q text cs skipLine Anything := by
  refine Blames.loop (τ := Cursor) (fun u cs => ?_) ()
  have hround : Blames q text cs (skipLineRound u) Anything := by
    refine .take? ?_
    cases cs with
    | nil => exact .pure trivial
    | cons d ds =>
      show Blames q text ds (if d = '\n' then _ else _) Anything
      split
      · exact .pure trivial
      · exact .pure trivial
  exact (hround.and_tracks (tracks_skipLineRound u · cs)).mono fun _ _ h => h.2.1.2

/-- So are comments. -/
theorem blames_skipComments (starts : List Char) :
    Blames q text cs (skipComments starts) Anything := by
  refine Blames.loop (τ := Cursor) (fun u cs => ?_) ()
  have hround : Blames q text cs (skipCommentsRound starts u) Anything := by
    refine blames_skipBlanks.bind fun _ rest _ => .peek ?_
    cases rest with
    | nil => exact .pure trivial
    | cons d ds =>
      show Blames q text (d :: ds) (if starts.contains d then _ else _) Anything
      split
      · exact blames_skipLine.bind fun _ _ _ => .pure trivial
      · exact .pure trivial
  exact (hround.and_tracks (tracks_skipCommentsRound starts u · cs)).mono fun _ _ h => h.2.1.2

/-- A literal is what it says that stands before the rest. -/
theorem blames_literal :
    Blames q text cs (literal q) fun lit rest => lit = cs.takeWhile q ∧ rest = cs.dropWhile q := by
  have hloop : Blames q text cs (literal q) Anything := by
    refine Blames.loop (τ := Cursor) (fun taken cs => ?_) []
    have hround : Blames q text cs (literalRound q taken) Anything := by
      refine .peek ?_
      cases cs with
      | nil => exact .pure trivial
      | cons d ds =>
        show Blames q text (d :: ds) (if q d then _ else _) Anything
        split
        · exact .take? (.pure trivial)
        · exact .pure trivial
    refine (hround.and_tracks (tracks_literalRound taken · cs)).mono fun r rest h => ?_
    obtain ⟨-, ⟨-, rfl, -⟩ | ⟨d, rfl, -, rfl⟩, -⟩ := h
    · nofun
    · exact fun _ _ => Nat.lt_succ_self _
  exact (hloop.and_tracks fun _ => tracks_literal).mono fun _ _ h => h.2.1

/-! ### Strings -/

/-- A digit that is none is reported where it stands. -/
theorem blames_hexNumber (n count : Nat) :
    Blames q text cs (hexNumber n count) fun m rest =>
      ∃ digits, cs = digits ++ rest ∧ Numeral.naturalFrom? 16 n digits = some m := by
  induction count generalizing n cs with
  | zero => exact .pure ⟨[], rfl, rfl⟩
  | succ count ih =>
    refine .here fun p hp => .take rfl fun d ds hcs => ?_
    subst hcs
    cases hd : Numeral.digitValue? 16 d with
    | none => exact .throw ⟨d :: ds, hp, rfl⟩
    | some v =>
      refine (ih (n * 16 + v)).mono fun m rest h => ?_
      obtain ⟨digits, rfl, hm⟩ := h
      refine ⟨d :: digits, rfl, ?_⟩
      rw [Numeral.naturalFrom?, hd]
      exact hm

/-- A number that is no character's is reported where its digits begin. -/
theorem blames_hexChar (count : Nat) : Blames q text cs (hexChar count) Anything := by
  refine .here fun p hp => (blames_hexNumber 0 count).bind fun n rest h => ?_
  obtain ⟨digits, rfl, hdigits⟩ := h
  split
  · exact .pure trivial
  · exact .throw ⟨digits ++ rest, hp, digits, List.prefix_append digits rest, hdigits⟩

/-- An escape leaves an end of the text, whatever its digits. -/
theorem blames_escape : Blames q text cs escape fun _ rest => rest <:+ cs := by
  have hescape : Blames q text cs escape Anything := by
    refine .take rfl fun d ds _ => ?_
    repeat' split
    all_goals first | exact .pure trivial | exact blames_hexChar _
  exact (hescape.and_tracks fun _ => tracks_escape).mono fun _ _ h => h.2.2

/-- A string that is not closed is reported where its delimiter stands. -/
theorem blames_stringRound {delimiter : Char} {start : Pos}
    (hstart : Failure.Explained text ⟨.endOfInput (.delimiter delimiter), start⟩)
    (taken cs : List Char) :
    Blames q text cs (stringRound delimiter start taken) (Shrinks cs) := by
  refine .take? ?_
  cases cs with
  | nil => exact .throw hstart
  | cons d ds =>
    show Blames q text ds (if d = '\\' then _ else _) _
    split
    · refine blames_escape.bind fun _ rest hrest => .pure fun _ _ => ?_
      exact Nat.lt_succ_of_le hrest.length_le
    · split
      · exact .pure nofun
      · exact .pure fun _ _ => Nat.lt_succ_self _

/-- A string that is not closed is reported where it begins. -/
theorem blames_string : Blames q text cs string fun _ rest => rest.length < cs.length := by
  have hstring : Blames q text cs string Anything := by
    refine .here fun p hp => .take rfl fun d ds hcs => ?_
    have hstart : Failure.Explained text ⟨.endOfInput (.delimiter d), p⟩ :=
      ⟨cs, hp, by rw [hcs]; rfl⟩
    have hloop : Blames q text ds (Cursor.loop (stringRound d p) []) Anything :=
      Blames.loop (τ := Cursor) (blames_stringRound hstart) []
    exact hloop.bind fun _ _ _ => .pure trivial
  exact (hstring.and_tracks fun _ => tracks_string).mono fun _ _ h => h.2.1

/-! ### Characters, integers, symbols and IRIs -/

/-- A character that has no name stands for itself, and what was taken after it is put back. -/
theorem blames_character (hline : q '\n' = false) (sp : Spelling) :
    Blames q text cs (character q sp) Anything := by
  refine .intro fun hsuffix => blames_literal.bind fun lit rest h => ?_
  obtain ⟨hlit, hrest⟩ := h
  have hcs : lit ++ rest = cs := by rw [hlit, hrest, List.takeWhile_append_dropWhile]
  -- Only characters of a literal have been taken, and none of them ends a line.
  have hatoms : ∀ d ∈ lit, q d = true := by
    rw [hlit]
    exact fun d hd => List.mem_takeWhile_imp hd
  cases lit with
  | nil =>
    show Blames q text rest (take .character) Anything
    rw [← bind_pure (take .character)]
    exact .take rfl fun _ _ _ => .pure trivial
  | cons d back =>
    dsimp only
    cases sp.charNamed? (d :: back) with
    | some named => exact .pure trivial
    | none =>
      -- What is put back has just been taken, so it is what the text goes on with.
      refine Blames.pushBack (τ := Cursor) (fun e he => ?_) ?_ (.pure trivial)
      · have hq := hatoms e (List.mem_cons_of_mem d he)
        refine ⟨hq, ?_⟩
        rintro rfl
        rw [hq] at hline
        cases hline
      · rw [← hcs, List.cons_append] at hsuffix
        exact (List.suffix_cons d (back ++ rest)).trans hsuffix

/-- A literal that is no number is reported where it begins. -/
theorem blames_radixInteger (radix : Nat) : Blames q text cs (radixInteger q radix) Anything := by
  refine .here fun p hp => blames_literal.bind fun lit rest h => ?_
  split
  · exact .pure trivial
  · refine .throw ⟨cs, hp, ?_⟩
    show (String.ofList lit).toList <+: cs
    rw [String.toList_ofList, h.1]
    exact List.takeWhile_prefix q

/-- A symbol that is not closed is reported where its bar stands. -/
theorem blames_barredSymbol {start : Pos}
    (hstart : ∀ taken, Failure.Explained text ⟨.unclosedSymbol taken, start⟩) :
    Blames q text cs (barredSymbol start) Anything := by
  refine Blames.loop (τ := Cursor) (fun taken cs => .take? ?_) []
  cases cs with
  | nil => exact .throw (hstart _)
  | cons d ds =>
    show Blames q text ds (if d = '|' then _ else _) _
    split
    · exact .pure nofun
    · split
      · refine .take? ?_
        cases ds with
        | nil => exact .throw (hstart _)
        | cons e es =>
          refine .pure fun _ _ => ?_
          simp only [List.tail_cons, List.length_cons]
          omega
      · exact .pure fun _ _ => Nat.lt_succ_self _

/-- An IRI that is not closed is reported where its bracket stands. -/
theorem blames_bracketedIri {start : Pos}
    (hstart : Failure.Explained text ⟨.endOfInput .iri, start⟩) :
    Blames q text cs (bracketedIri start) Anything := by
  refine Blames.loop (τ := Cursor) (fun taken cs => .take? ?_) []
  cases cs with
  | nil => exact .throw hstart
  | cons d ds =>
    show Blames q text ds (if d = '>' then _ else _) _
    split
    · exact .pure nofun
    · exact .pure fun _ _ => Nat.lt_succ_self _

end Lexeme

end SExpr
