import SExpr.Proofs.Tracks.Structure

/-!
# The same text elsewhere

What can be read of a text can be read wherever the text stands: at another place, inside of other
lists and with more room. Only failures tell the difference.

* **`CursorM.Repeats`** and **`ReadM.Repeats`**: what one action does over a text, another one
  yields before the same text. The rules follow the text of a reader, as those of `Yields` do.
* **`Dialect.Repeats`**: the rules of a dialect do so, if what is nested does.
* **`Dialect.Repeats.nested`**: then what is nested does, if there is no less room.
-/

namespace SExpr

open Cursor

/-! ## Loops -/

/-- What is kept by sequences is kept by loops with the same allowance. -/
theorem loop_related {τ α β : Type} {Rel : EStateM Failure τ α → EStateM Failure τ α → Prop}
    {step₁ step₂ : β → EStateM Failure τ (β ⊕ α)} {stuck₁ stuck₂ : EStateM Failure τ α}
    (hbind : ∀ b (f₁ f₂ : β ⊕ α → EStateM Failure τ α), (∀ r, Rel (f₁ r) (f₂ r)) →
      Rel (step₁ b >>= f₁) (step₂ b >>= f₂))
    (hpure : ∀ a, Rel (pure a) (pure a)) (hstuck : Rel stuck₁ stuck₂) (xs : List Char) (b : β) :
    Rel (loop step₁ stuck₁ xs b) (loop step₂ stuck₂ xs b) := by
  induction xs generalizing b with
  | nil =>
    rw [loop_eq_bind step₁, loop_eq_bind step₂]
    refine hbind b _ _ fun r => ?_
    cases r with
    | inr a => exact hpure a
    | inl b' => exact hstuck
  | cons x xs ih =>
    rw [loop_eq_bind step₁, loop_eq_bind step₂]
    refine hbind b _ _ fun r => ?_
    cases r with
    | inr a => exact hpure a
    | inl b' => exact ih b'

/-! ## Cursors -/

namespace CursorM

variable {α β : Type}

/-- What the first action does over a text, the second one yields before that text. -/
def Repeats (x₁ x₂ : CursorM α) : Prop :=
  ∀ cs c a c', c.Before cs → x₁ c = .ok a c' → ∃ rest, c'.Before rest ∧ Yields x₂ cs a rest

namespace Repeats

/-- What always succeeds, with a result that is told by the text, repeats itself. -/
theorem of_yields {x : CursorM α} (h : ∀ cs, ∃ a rest, Yields x cs a rest) : Repeats x x := by
  intro cs c a c' hc hx
  obtain ⟨b, rest, hyields⟩ := h cs
  obtain ⟨c₁, hc₁, hx₁⟩ := hyields c hc
  cases hx₁.symm.trans hx
  exact ⟨rest, hc₁, hyields⟩

theorem pure (a : α) : Repeats (Pure.pure a) (Pure.pure a) :=
  of_yields fun cs => ⟨a, cs, .pure a cs⟩

/-- Nothing is said of what fails. -/
theorem throw {e : Failure} {x₂ : CursorM α} : Repeats (MonadExcept.throw e) x₂ :=
  fun _ _ _ _ _ h => nomatch h

/-- Actions that are repeated follow one another. -/
theorem bind {x₁ x₂ : CursorM α} {f₁ f₂ : α → CursorM β} (hx : Repeats x₁ x₂)
    (hf : ∀ a, Repeats (f₁ a) (f₂ a)) : Repeats (x₁ >>= f₁) (x₂ >>= f₂) := by
  intro cs c b c' hc h
  cases hres : x₁ c with
  | error e c₁ =>
    rw [bind_of_error hres] at h
    cases h
  | ok a c₁ =>
    rw [bind_of_ok hres] at h
    obtain ⟨mid, hc₁, hx₂⟩ := hx cs c a c₁ hc hres
    obtain ⟨rest, hc', hf₂⟩ := hf a mid c₁ b c' hc₁ h
    exact ⟨rest, hc', hx₂.bind hf₂⟩

/-- The place may differ. -/
theorem here {f₁ f₂ : Pos → CursorM β} (hf : ∀ p₁ p₂, Repeats (f₁ p₁) (f₂ p₂)) :
    Repeats (Cursor.here >>= f₁) (Cursor.here >>= f₂) := by
  intro cs c b c' hc h
  obtain ⟨rest, hc', -⟩ := hf c.pos c.pos cs c b c' hc h
  refine ⟨rest, hc', yields_here fun p => ?_⟩
  obtain ⟨rest', hrest', hyields⟩ := hf c.pos p cs c b c' hc h
  rwa [← hc'.unread, hrest'.unread]

theorem peek : Repeats Cursor.peek Cursor.peek :=
  of_yields fun cs => ⟨cs.head?, cs, yields_peek cs⟩

theorem take? : Repeats Cursor.take? Cursor.take? :=
  of_yields fun cs => ⟨cs.head?, cs.tail, yields_take? cs⟩

theorem take (awaited : Awaited) : Repeats (Cursor.take awaited) (Cursor.take awaited) :=
  .here fun _ _ => .bind .take? fun
    | some d => .pure d
    | none => .throw

theorem pushBack (text : List Char) : Repeats (Cursor.pushBack text) (Cursor.pushBack text) :=
  of_yields fun cs => ⟨(), text ++ cs, yields_pushBack text cs⟩

/-- Both loops have the same allowance, as they stand before the same text. -/
theorem loop {step₁ step₂ : β → CursorM (β ⊕ α)} (hstep : ∀ b, Repeats (step₁ b) (step₂ b))
    (b : β) : Repeats (Cursor.loop step₁ b) (Cursor.loop step₂ b) := by
  have hrounds (xs : List Char) :
      Repeats (SExpr.loop step₁ stuck xs b) (SExpr.loop step₂ stuck xs b) :=
    loop_related (fun b _ _ hf => .bind (hstep b) hf) .pure
      (fun _ _ _ _ _ h => absurd h stuck_ne_ok) xs b
  intro cs c a c' hc h
  obtain ⟨rest, hc', hyields⟩ := hrounds cs cs c a c' hc (by rwa [← hc.unread, ← Cursor.loop_def])
  refine ⟨rest, hc', fun c₂ hc₂ => ?_⟩
  obtain ⟨c₃, hc₃, h₂⟩ := hyields c₂ hc₂
  refine ⟨c₃, hc₃, ?_⟩
  rwa [← hc₂.unread, ← Cursor.loop_def] at h₂

end Repeats

end CursorM

/-! ## Lexemes -/

namespace Lexeme

open CursorM

theorem skipLine_repeats : Repeats skipLine skipLine :=
  .of_yields fun cs => ⟨(), _, yields_skipLine cs⟩

/-- Blanks and comments are skipped before the same text. -/
theorem skipComments_repeats (starts : List Char) :
    Repeats (skipComments starts) (skipComments starts) := by
  refine .of_yields fun cs => ?_
  obtain ⟨rest, hyields, -⟩ := exists_yields_skipComments starts cs
  exact ⟨(), rest, hyields⟩

variable {q : Char → Bool}

/-- The same literal is read. -/
theorem literal_repeats : Repeats (literal q) (literal q) :=
  .of_yields fun cs => ⟨_, _, yields_literal q cs⟩

theorem hexNumber_repeats (n count : Nat) : Repeats (hexNumber n count) (hexNumber n count) := by
  induction count generalizing n with
  | zero => exact .pure n
  | succ count ih =>
    refine .here fun p₁ p₂ => .bind (.take .escape) fun c => ?_
    split
    · exact ih _
    · exact .throw

theorem hexChar_repeats (count : Nat) : Repeats (hexChar count) (hexChar count) := by
  refine .here fun p₁ p₂ => .bind (hexNumber_repeats 0 count) fun n => ?_
  split
  · exact .pure _
  · exact .throw

theorem escape_repeats : Repeats escape escape := by
  refine .bind (.take .escape) fun c => ?_
  split_ifs
  · exact .pure _
  · exact .pure _
  · exact .pure _
  · exact .pure _
  · exact .pure _
  · exact hexChar_repeats 4
  · exact hexChar_repeats 8
  · exact .pure _

/-- A round of a string, whatever place the string began at. -/
theorem stringRound_repeats (delimiter : Char) (p₁ p₂ : Pos) (taken : List Char) :
    Repeats (stringRound delimiter p₁ taken) (stringRound delimiter p₂ taken) := by
  refine .bind .take? fun r => ?_
  split
  · exact .throw
  · split_ifs
    · exact .bind escape_repeats fun _ => .pure _
    · exact .pure _
    · exact .pure _

theorem string_repeats : Repeats string string :=
  .here fun p₁ p₂ => .bind (.take .value) fun delimiter =>
    .bind (.loop (stringRound_repeats delimiter p₁ p₂) []) fun _ => .pure _

theorem character_repeats (sp : Spelling) : Repeats (character q sp) (character q sp) := by
  refine .bind literal_repeats fun text => ?_
  split
  · exact .take .character
  · split
    · exact .pure _
    · exact .bind (.pushBack _) fun _ => .pure _

theorem radixInteger_repeats (radix : Nat) :
    Repeats (radixInteger q radix) (radixInteger q radix) := by
  refine .here fun p₁ p₂ => .bind literal_repeats fun text => ?_
  split
  · exact .pure _
  · exact .throw

/-- A round of a symbol between bars, whatever place it began at. -/
theorem barredSymbolRound_repeats (p₁ p₂ : Pos) (taken : List Char) :
    Repeats (barredSymbolRound p₁ taken) (barredSymbolRound p₂ taken) := by
  refine .bind .take? fun r => ?_
  split
  · exact .throw
  · split_ifs
    · exact .pure _
    · refine .bind .take? fun r => ?_
      split
      · exact .throw
      · exact .pure _
    · exact .pure _

theorem barredSymbol_repeats (p₁ p₂ : Pos) : Repeats (barredSymbol p₁) (barredSymbol p₂) :=
  .loop (barredSymbolRound_repeats p₁ p₂) []

end Lexeme

/-! ## Sessions -/

namespace ReadM

variable {σ α β : Type}

/-- What the first action does over a text, with something remembered, the second one yields before
that text, if the same is remembered. -/
def Repeats (x₁ x₂ : ReadM σ α) : Prop :=
  ∀ cs s a s', s.cursor.Before cs → x₁ s = .ok a s' →
    ∃ rest, s'.cursor.Before rest ∧ Yields x₂ s.memory cs a s'.memory rest

namespace Repeats

theorem pure (a : α) : Repeats (Pure.pure a : ReadM σ α) (Pure.pure a) := by
  intro cs s b s' hs h
  cases h
  exact ⟨cs, hs, .pure a s.memory cs⟩

theorem fail {cause : Cause} {p : Pos} {x₂ : ReadM σ α} : Repeats (ReadM.fail cause p) x₂ :=
  fun _ _ _ _ _ h => nomatch h

theorem stray {b : Bracket} {p : Pos} {x₂ : ReadM σ α} : Repeats (ReadM.stray b p) x₂ :=
  fun _ _ _ _ _ h => nomatch h

/-- What follows is repeated with the session that is left. -/
theorem bind {x₁ x₂ : ReadM σ α} {f₁ f₂ : α → ReadM σ β} (hx : Repeats x₁ x₂)
    (hf : ∀ a, Repeats (f₁ a) (f₂ a)) : Repeats (x₁ >>= f₁) (x₂ >>= f₂) := by
  intro cs s b s' hs h
  cases hres : x₁ s with
  | error e s₁ =>
    rw [bind_of_error hres] at h
    cases h
  | ok a s₁ =>
    rw [bind_of_ok hres] at h
    obtain ⟨mid, hs₁, hx₂⟩ := hx cs s a s₁ hs hres
    obtain ⟨rest, hs', hf₂⟩ := hf a mid s₁ b s' hs₁ h
    exact ⟨rest, hs', hx₂.bind hf₂⟩

/-- The place may differ. -/
theorem here {f₁ f₂ : Pos → ReadM σ β} (hf : ∀ p₁ p₂, Repeats (f₁ p₁) (f₂ p₂)) :
    Repeats ((ReadM.onCursor Cursor.here : ReadM σ Pos) >>= f₁)
      ((ReadM.onCursor Cursor.here : ReadM σ Pos) >>= f₂) := by
  intro cs s b s' hs h
  obtain ⟨rest, hs', -⟩ := hf s.cursor.pos s.cursor.pos cs s b s' hs h
  refine ⟨rest, hs', .here fun p => ?_⟩
  obtain ⟨rest', hrest', hyields⟩ := hf s.cursor.pos p cs s b s' hs h
  rwa [← hs'.unread, hrest'.unread]

/-- What moves a cursor moves that of a session. -/
theorem onCursor {x₁ x₂ : CursorM α} (hx : CursorM.Repeats x₁ x₂) :
    Repeats (ReadM.onCursor x₁ : ReadM σ α) (ReadM.onCursor x₂) := by
  intro cs s a s' hs h
  unfold ReadM.onCursor at h
  cases hres : x₁ s.cursor with
  | error e c =>
    rw [hres] at h
    cases h
  | ok a c =>
    rw [hres] at h
    cases h
    obtain ⟨rest, hc, hx₂⟩ := hx cs s.cursor a c hs hres
    exact ⟨rest, hc, .onCursor hx₂ s.memory⟩

/-- What is open around it may differ. -/
theorem within {x₁ x₂ : ReadM σ α} (hx : Repeats x₁ x₂) (frame₁ frame₂ : Frame) :
    Repeats (ReadM.within frame₁ x₁) (ReadM.within frame₂ x₂) := by
  intro cs s a s' hs h
  cases hres : x₁ { s with context := frame₁ :: s.context } with
  | error e u =>
    rw [Tracks.within_of_error hres] at h
    cases h
  | ok a u =>
    rw [Tracks.within_of_ok hres] at h
    cases h
    obtain ⟨rest, hu, hx₂⟩ := hx cs { s with context := frame₁ :: s.context } a u hs hres
    exact ⟨rest, hu, hx₂.within frame₂⟩

/-- What has been read in one session is yielded in any. -/
theorem yields_of_ok {x₁ x₂ : ReadM σ α} (hx : Repeats x₁ x₂) {s s' : Session σ}
    {cs rest : List Char} {a : α} (hs : s.cursor.Before cs) (h : x₁ s = .ok a s')
    (hs' : s'.cursor.Before rest) : Yields x₂ s.memory cs a s'.memory rest := by
  obtain ⟨rest', hrest', hyields⟩ := hx cs s a s' hs h
  obtain rfl : rest' = rest := hrest'.unread.symm.trans hs'.unread
  exact hyields

/-- What is yielded once is yielded again. -/
theorem yields {x₁ x₂ : ReadM σ α} (hx : Repeats x₁ x₂) {m m' : σ} {cs rest : List Char} {a : α}
    (h : Yields x₁ m cs a m' rest) : Yields x₂ m cs a m' rest := by
  have hfresh := Session.fresh_before cs m 0
  obtain ⟨c, hc, hread⟩ := h (.fresh cs none m 0) rfl hfresh
  exact hx.yields_of_ok hfresh hread hc

/-- Both loops have the same allowance, as they stand before the same text. -/
theorem loop {step₁ step₂ : β → ReadM σ (β ⊕ α)} (hstep : ∀ b, Repeats (step₁ b) (step₂ b))
    (b : β) : Repeats (ReadM.loop step₁ b) (ReadM.loop step₂ b) := by
  have hrounds (xs : List Char) :
      Repeats (SExpr.loop step₁ (ReadM.onCursor stuck) xs b)
        (SExpr.loop step₂ (ReadM.onCursor stuck) xs b) :=
    loop_related (fun b _ _ hf => .bind (hstep b) hf) .pure
      (fun _ _ _ _ _ h => absurd h stuck_ne_ok) xs b
  intro cs s a s' hs h
  obtain ⟨rest, hs', hyields⟩ := hrounds cs cs s a s' hs (by rwa [← hs.unread, ← ReadM.loop_def])
  refine ⟨rest, hs', fun s₂ hm hs₂ => ?_⟩
  obtain ⟨c, hc, h₂⟩ := hyields s₂ hm hs₂
  refine ⟨c, hc, ?_⟩
  rwa [← hs₂.unread, ← ReadM.loop_def] at h₂

end Repeats

end ReadM

/-! ## Tokens -/

open ReadM

variable {σ : Type}

theorem plainAtom_repeats (text : List Char) (p₁ p₂ : Pos) :
    Repeats (plainAtom text p₁ : ReadM σ Value) (plainAtom text p₂) := by
  unfold plainAtom
  split
  · exact .pure _
  · exact .fail

namespace Lexicon

variable {l : Lexicon σ}

/-- A token of the common kind is repeated if its literals are. -/
theorem basicToken_repeats (hatom : ∀ text p₁ p₂, Repeats (l.atom text p₁) (l.atom text p₂)) :
    Repeats l.basicToken l.basicToken := by
  refine .here fun p₁ p₂ => .bind (.onCursor .peek) fun r => ?_
  split
  · exact .pure _
  · split
    · exact .bind (.onCursor .take?) fun _ => .pure _
    · split
      · exact .bind (.onCursor Lexeme.string_repeats) fun _ => .pure _
      · refine .bind (.onCursor Lexeme.literal_repeats) fun text => ?_
        split
        · exact .bind (.onCursor (.take .value)) fun c =>
            .bind (hatom [c] p₁ p₂) fun _ => .pure _
        · exact .bind (hatom _ p₁ p₂) fun _ => .pure _

theorem character_repeats : CursorM.Repeats l.character l.character :=
  .bind (Lexeme.character_repeats _) fun _ => .pure _

theorem radixInteger_repeats (radix : Nat) :
    CursorM.Repeats (l.radixInteger radix) (l.radixInteger radix) :=
  .bind (Lexeme.radixInteger_repeats radix) fun _ => .pure _

end Lexicon

/-- What is nested is repeated, wherever it begins. -/
structure Nested.Repeats (n₁ n₂ : Nested σ) : Prop where
  datum : ∀ p₁ p₂, ReadM.Repeats (n₁.datum p₁) (n₂.datum p₂)
  items : ∀ b p₁ p₂, ReadM.Repeats (n₁.items b p₁) (n₂.items b p₂)

/-- What comes before a token, and the token, are repeated if what is nested in them is. -/
structure Dialect.Repeats (d : Dialect σ) : Prop where
  trivia : ∀ {n₁ n₂}, Nested.Repeats n₁ n₂ → ReadM.Repeats (d.trivia n₁) (d.trivia n₂)
  token : ∀ {n₁ n₂}, Nested.Repeats n₁ n₂ → ReadM.Repeats (d.token n₁) (d.token n₂)

namespace Dialect

/-! ## Scheme -/

namespace Scheme

variable {n₁ n₂ : Nested Unit}

/-- Comments that leave out a datum, if data are repeated. -/
theorem triviaRound_repeats (hn : Nested.Repeats n₁ n₂) (u : Unit) :
    ReadM.Repeats (triviaRound n₁ u) (triviaRound n₂ u) := by
  refine .bind (.onCursor (Lexeme.skipComments_repeats [';'])) fun _ =>
    .bind (.onCursor .peek) fun r => ?_
  split
  · refine .here fun p₁ p₂ => .bind (.onCursor .take?) fun _ => .bind (.onCursor .peek) fun r => ?_
    split
    · exact .bind (.onCursor .take?) fun _ => .bind (hn.datum p₁ p₂) fun _ => .pure _
    · exact .bind (.onCursor Lexeme.skipLine_repeats) fun _ => .pure _
    · exact .bind (.onCursor (.pushBack _)) fun _ => .pure _
  · exact .pure _

/-- What a number sign opens in Scheme. -/
theorem sharp_repeats (p₁ p₂ : Pos) : ReadM.Repeats (sharp p₁) (sharp p₂) := by
  refine .bind (.onCursor .peek) fun r => ?_
  split
  · exact .here fun _ _ => .fail
  · split
    · exact .bind (.onCursor .take?) fun _ => .onCursor Lexicon.character_repeats
    · split
      · exact .bind (.onCursor .take?) fun _ => .onCursor (Lexicon.radixInteger_repeats _)
      · split
        · refine .bind (.onCursor Lexeme.literal_repeats) fun text => ?_
          split
          · exact .pure _
          · exact .fail
        · exact .fail

theorem token_repeats : ReadM.Repeats token token := by
  refine .bind (.onCursor .peek) fun r => ?_
  split
  · exact .here fun p₁ p₂ => .bind (.onCursor .take?) fun _ =>
      .bind (sharp_repeats p₁ p₂) fun _ => .pure _
  · exact Lexicon.basicToken_repeats plainAtom_repeats

end Scheme

theorem scheme_repeats : scheme.Repeats where
  trivia hn := .loop (Scheme.triviaRound_repeats hn) ()
  token _ := Scheme.token_repeats

/-! ## Common Lisp -/

namespace CommonLisp

variable {options : Options} {n₁ n₂ : Nested Unit}

theorem atom_repeats (text : List Char) (p₁ p₂ : Pos) :
    ReadM.Repeats (atom options text p₁) (atom options text p₂) := by
  unfold atom
  split_ifs
  · exact .pure _
  · exact .pure _
  · exact plainAtom_repeats text p₁ p₂

theorem marked_repeats (hn : Nested.Repeats n₁ n₂) (head : String) (p₁ p₂ : Pos) :
    ReadM.Repeats (marked n₁ head p₁) (marked n₂ head p₂) :=
  .bind (hn.datum p₁ p₂) fun _ => .pure _

/-- What a number sign opens in Common Lisp. -/
theorem sharp_repeats (hn : Nested.Repeats n₁ n₂) (p₁ p₂ : Pos) :
    ReadM.Repeats (sharp options n₁ p₁) (sharp options n₂ p₂) := by
  refine .bind (.onCursor (.take .value)) fun c => ?_
  split_ifs
  · exact .onCursor (Lexicon.radixInteger_repeats 2)
  · exact .onCursor (Lexicon.radixInteger_repeats 8)
  · exact .onCursor (Lexicon.radixInteger_repeats 16)
  · exact .onCursor Lexicon.character_repeats
  · exact .bind (hn.items .round p₁ p₂) fun _ => .pure _
  · exact marked_repeats hn options.function p₁ p₂
  · exact .fail

/-- A token of Common Lisp, if what is nested is repeated. -/
theorem token_repeats (hn : Nested.Repeats n₁ n₂) :
    ReadM.Repeats (token options n₁) (token options n₂) := by
  refine .here fun p₁ p₂ => .bind (.onCursor .peek) fun r => ?_
  split
  · exact .bind (.onCursor .take?) fun _ => .bind (sharp_repeats hn p₁ p₂) fun _ => .pure _
  · exact .bind (.onCursor .take?) fun _ =>
      .bind (.onCursor (Lexeme.barredSymbol_repeats p₁ p₂)) fun _ => .pure _
  · exact .bind (.onCursor .take?) fun _ =>
      .bind (marked_repeats hn options.quote p₁ p₂) fun _ => .pure _
  · exact Lexicon.basicToken_repeats atom_repeats

end CommonLisp

theorem commonLisp_repeats (options : CommonLisp.Options) : (commonLisp options).Repeats where
  trivia _ := .onCursor (Lexeme.skipComments_repeats [';'])
  token := CommonLisp.token_repeats

/-! ## Values -/

namespace Repeats

variable {d : Dialect σ} {n₁ n₂ : Nested σ} {α : Type} {f₁ f₂ : Item → ReadM σ α}

/-- An item and what is made of it, which does not depend on where the item stands. -/
theorem item_bind (hd : d.Repeats) (hn : Nested.Repeats n₁ n₂)
    (hvalue : ∀ v, ReadM.Repeats (f₁ (.value v)) (f₂ (.value v)))
    (hcloser : ∀ b p₁ p₂, ReadM.Repeats (f₁ (.closer b p₁)) (f₂ (.closer b p₂)))
    (hended : ∀ p₁ p₂, ReadM.Repeats (f₁ (.ended p₁)) (f₂ (.ended p₂))) :
    ReadM.Repeats (d.item n₁ >>= f₁) (d.item n₂ >>= f₂) := by
  rw [Dialect.item_bind, Dialect.item_bind]
  refine .bind (hd.trivia hn) fun _ => .here fun p₁ p₂ => .bind (hd.token hn) fun token => ?_
  cases token with
  | ended => exact hended p₁ p₂
  | opener b => exact .bind (hn.items b p₁ p₂) fun vs => hvalue (.list vs)
  | closer b => exact hcloser b p₁ p₂
  | value v => exact hvalue v

/-- A value is repeated. -/
theorem value (hd : d.Repeats) (hn : Nested.Repeats n₁ n₂) :
    ReadM.Repeats (d.value n₁) (d.value n₂) :=
  hd.item_bind hn (fun _ => .pure _) (fun _ _ _ => .stray) fun _ _ => .fail

/-- The items of a list are repeated. -/
theorem items (hd : d.Repeats) (hn : Nested.Repeats n₁ n₂) (b : Bracket) (p₁ p₂ : Pos) :
    ReadM.Repeats (d.items n₁ b p₁) (d.items n₂ b p₂) := by
  refine .loop (fun taken => hd.item_bind hn (fun _ => .pure _) (fun got p₁ p₂ => ?_)
    fun _ _ => .fail) []
  simp only
  split_ifs
  · exact .pure _
  · exact .stray

/-- **What is nested** is repeated with no less room. -/
theorem nested (hd : d.Repeats) {room more : Nat} (hle : room ≤ more) :
    Nested.Repeats (d.nested room) (d.nested more) := by
  -- The induction is on the smaller room: where it is used up, nothing can be read.
  induction room generalizing more with
  | zero => exact ⟨fun _ _ => .fail, fun _ _ _ => .fail⟩
  | succ room ih =>
    obtain ⟨more, rfl⟩ : ∃ k, more = k + 1 := ⟨more - 1, by omega⟩
    have hn := ih (Nat.le_of_succ_le_succ hle)
    exact ⟨fun _ _ => .within (hd.value hn) .mark .mark,
      fun b p₁ p₂ => .within (hd.items hn b p₁ p₂) (.list b) (.list b)⟩

end Repeats

end Dialect

end SExpr
