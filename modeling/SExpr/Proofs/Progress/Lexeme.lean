import SExpr.Proofs.Progress

/-!
# What the pieces of tokens take

Blanks, comments, literals, strings and the rest take characters round by round. What a round takes
it may put back only in part, so that the loops come to an end.
-/

namespace SExpr.Lexeme

open Cursor

/-- A blank is taken. -/
theorem spends_skipBlanksRound (u : Unit) : Spends (skipBlanksRound u) goingOn := by
  intro cs
  refine .peek ?_
  cases cs with
  | nil => exact .pure (Nat.le_refl _)
  | cons d ds =>
    show Leaves (if Text.isBlank d then _ else _) _ _
    split
    · exact .take? (.pure (Nat.le_refl _))
    · exact .pure (Nat.le_refl _)

/-- A character of a line is taken. -/
theorem spends_skipLineRound (u : Unit) : Spends (skipLineRound u) goingOn := by
  intro cs
  refine .take? ?_
  cases cs with
  | nil => exact .pure (Nat.le_refl _)
  | cons d ds =>
    show Leaves (if d = '\n' then _ else _) _ _
    split
    · exact .pure (Nat.le_succ _)
    · exact .pure (Nat.le_refl _)

theorem shortens_skipBlanks : Shortens skipBlanks :=
  .loop (τ := Cursor) (fun u => (spends_skipBlanksRound u).shortens) ()

/-- The rest of a line is at least one character, unless the input is at its end. -/
theorem leaves_skipLine_cons (d : Char) (ds : List Char) :
    Leaves skipLine (d :: ds) fun _ rest => rest.length ≤ ds.length := by
  -- Before the first round all of the text is there; after it there is less, and never more again.
  refine .loop (τ := Cursor) (fun _ rest => rest = d :: ds ∨ rest.length ≤ ds.length)
    (fun u cs hcs => ?_) (.inl rfl)
  rcases hcs with rfl | hcs
  · refine .take? ?_
    show Leaves (if d = '\n' then _ else _) _ _
    split
    · exact .pure (Nat.le_refl _)
    · exact .pure (.inr (Nat.le_refl _))
  · refine ((spends_skipLineRound u).shortens cs).mono fun r rest h => ?_
    cases r with
    | inl u => exact .inr (h.trans hcs)
    | inr u => exact h.trans hcs

theorem shortens_skipLine : Shortens skipLine :=
  .loop (τ := Cursor) (fun u => (spends_skipLineRound u).shortens) ()

/-- A comment is taken with the character that starts it. -/
theorem spends_skipCommentsRound (starts : List Char) (u : Unit) :
    Spends (skipCommentsRound starts u) goingOn := by
  intro cs
  refine (shortens_skipBlanks cs).bind fun _ rest hrest => .peek ?_
  cases rest with
  | nil => exact .pure (Nat.zero_le _)
  | cons d ds =>
    show Leaves (if starts.contains d then _ else _) _ _
    split
    · refine (leaves_skipLine_cons d ds).bind fun _ rest h => .pure ?_
      exact (Nat.succ_le_succ h).trans hrest
    · exact .pure hrest

theorem shortens_skipComments (starts : List Char) : Shortens (skipComments starts) :=
  .loop (τ := Cursor) (fun u => (spends_skipCommentsRound starts u).shortens) ()

/-- A character of a literal is taken. -/
theorem spends_literalRound (p : Char → Bool) (taken : List Char) :
    Spends (literalRound p taken) goingOn := by
  intro cs
  refine .peek ?_
  cases cs with
  | nil => exact .pure (Nat.le_refl _)
  | cons d ds =>
    show Leaves (if p d then _ else _) _ _
    split
    · exact .take? (.pure (Nat.le_refl _))
    · exact .pure (Nat.le_refl _)

/-- A literal takes its characters. -/
theorem spends_literal (p : Char → Bool) : Spends (literal p) List.length := by
  intro cs c hc
  refine (ensures_literal p c).mono fun text c' h => ?_
  have hlength := congrArg List.length (List.takeWhile_append_dropWhile (p := p) (l := c.unread))
  rw [List.length_append, ← h.1, ← h.2] at hlength
  show c'.unread.length + text.length ≤ cs.length
  rw [← hc, Nat.add_comm]
  exact hlength.le

/-- Digits are taken. -/
theorem shortens_hexNumber (n count : Nat) : Shortens (hexNumber n count) := by
  induction count generalizing n with
  | zero => exact fun cs => .pure (Nat.le_refl _)
  | succ count ih =>
    refine fun cs => .here fun p => .take fun d ds hcs => ?_
    subst hcs
    cases Numeral.digitValue? 16 d with
    | none => exact .throw
    | some k => exact (ih (n * 16 + k)).after_cons d ds

theorem shortens_hexChar (count : Nat) : Shortens (hexChar count) := by
  refine fun cs => .here fun p => (shortens_hexNumber 0 count cs).bind fun n rest hrest => ?_
  cases charOfCode? n with
  | none => exact .throw
  | some c => exact .pure hrest

/-- An escape takes its characters. -/
theorem shortens_escape : Shortens escape := by
  refine fun cs => .take fun d ds hcs => ?_
  subst hcs
  have hpure (c : Char) : Shortens (pure c : CursorM Char) := fun cs => .pure (Nat.le_refl _)
  repeat' split
  all_goals first | exact (hpure _).after_cons d ds | exact (shortens_hexChar _).after_cons d ds

/-- A character of a string is taken, with its escape. -/
theorem spends_stringRound (delimiter : Char) (start : Pos) (taken : List Char) :
    Spends (stringRound delimiter start taken) goingOn := by
  intro cs
  refine .take? ?_
  cases cs with
  | nil => exact .throw
  | cons d ds =>
    show Leaves (if d = '\\' then _ else _) _ _
    split
    · exact (shortens_escape ds).bind fun _ rest h => .pure (Nat.succ_le_succ h)
    · split
      · exact .pure (Nat.le_succ _)
      · exact .pure (Nat.le_refl _)

/-- A string takes at least its opening quote. -/
theorem spends_string : Spends string fun _ => 1 := by
  refine fun cs => .here fun start => .take fun d ds hcs => ?_
  subst hcs
  have hloop : Shortens (Cursor.loop (stringRound d start) []) :=
    .loop (τ := Cursor) (fun taken => (spends_stringRound d start taken).shortens) []
  exact (hloop ds).bind fun _ rest h => .pure (Nat.succ_le_succ h)

/-- The name of a character takes at least one character, however much of it is put back. -/
theorem spends_character (p : Char → Bool) (sp : Spelling) :
    Spends (character p sp) fun _ => 1 := by
  intro cs
  refine (spends_literal p cs).bind fun text rest h => ?_
  cases text with
  | nil =>
    -- Where no literal follows, one character is taken, whatever it is.
    exact (Cursor.spends_take .character rest).mono fun _ _ htake => htake.trans h
  | cons d ds =>
    dsimp only
    cases sp.charNamed? (d :: ds) with
    | some named => exact .pure ((Nat.add_le_add_left (by simp) _).trans h)
    | none =>
      -- Of the literal only its first character is not put back.
      refine .pushBack (τ := Cursor) (.pure ?_)
      show (ds ++ rest).length + 1 ≤ cs.length
      rw [List.length_append, Nat.add_right_comm, Nat.add_comm]
      exact h

theorem shortens_radixInteger (p : Char → Bool) (radix : Nat) :
    Shortens (radixInteger p radix) := by
  refine fun cs => .here fun place => (spends_literal p cs).bind fun text rest h => ?_
  cases Numeral.integer? radix text with
  | none => exact .throw
  | some n => exact .pure ((Nat.le_add_right ..).trans h)

/-- A character of a symbol is taken, with its escape. -/
theorem spends_barredSymbolRound (start : Pos) (taken : List Char) :
    Spends (barredSymbolRound start taken) goingOn := by
  intro cs
  refine .take? ?_
  cases cs with
  | nil => exact .throw
  | cons d ds =>
    show Leaves (if d = '|' then _ else _) _ _
    split
    · exact .pure (Nat.le_succ _)
    · split
      · refine .take? ?_
        cases ds with
        | nil => exact .throw
        | cons e es => exact .pure (Nat.le_succ _)
      · exact .pure (Nat.le_refl _)

theorem shortens_barredSymbol (start : Pos) : Shortens (barredSymbol start) :=
  .loop (τ := Cursor) (fun taken => (spends_barredSymbolRound start taken).shortens) []

/-- A character of an IRI is taken. -/
theorem spends_bracketedIriRound (start : Pos) (taken : List Char) :
    Spends (bracketedIriRound start taken) goingOn := by
  intro cs
  refine .take? ?_
  cases cs with
  | nil => exact .throw
  | cons d ds =>
    show Leaves (if d = '>' then _ else _) _ _
    split
    · exact .pure (Nat.le_succ _)
    · exact .pure (Nat.le_refl _)

theorem shortens_bracketedIri (start : Pos) : Shortens (bracketedIri start) :=
  .loop (τ := Cursor) (fun taken => (spends_bracketedIriRound start taken).shortens) []

/-- The loops that read the pieces of tokens come to an end without a bound on their rounds. -/
structure LoopsEnd : Prop where
  skipBlanks : ∀ u c, Ends skipBlanksRound u c
  skipLine : ∀ u c, Ends skipLineRound u c
  skipComments : ∀ starts u c, Ends (skipCommentsRound starts) u c
  literal : ∀ p taken c, Ends (literalRound p) taken c
  string : ∀ delimiter start taken c, Ends (stringRound delimiter start) taken c
  barredSymbol : ∀ start taken c, Ends (barredSymbolRound start) taken c
  bracketedIri : ∀ start taken c, Ends (bracketedIriRound start) taken c

/-- All loops of the pieces come to an end. -/
theorem loopsEnd : LoopsEnd where
  skipBlanks := ends_of_spends spends_skipBlanksRound
  skipLine := ends_of_spends spends_skipLineRound
  skipComments starts := ends_of_spends (spends_skipCommentsRound starts)
  literal p := ends_of_spends (spends_literalRound p)
  string delimiter start := ends_of_spends (spends_stringRound delimiter start)
  barredSymbol start := ends_of_spends (spends_barredSymbolRound start)
  bracketedIri start := ends_of_spends (spends_bracketedIriRound start)

end SExpr.Lexeme
