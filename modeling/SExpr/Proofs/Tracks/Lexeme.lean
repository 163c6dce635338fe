import SExpr.Lexeme
import SExpr.Proofs.Tracks

/-!
# Two readings of a lexeme

Every lexeme is read alike in both texts. What is enclosed by delimiters is so whatever follows;
blanks and comments, if they do not come to the end of the first text; and literals, if there they
are followed by a character that ends them.
-/

namespace SExpr.Lexeme

open Cursor Text

variable {q : Char → Bool} {t : Twin} {p : Pos} {cs : List Char}

/-! ## Blanks and comments -/

/-- Something is left. -/
abbrev Left {α : Type} : α → List Char → Prop := fun _ rest => rest ≠ []

theorem left_of_suffix {rest mid : List Char} (h : rest <:+ mid) (hrest : rest ≠ []) :
    mid ≠ [] := by
  rintro rfl
  exact hrest (List.suffix_nil.mp h)

/-- A round over blanks takes one, or stays where it is. -/
theorem tracks_skipBlanksRound (u : Unit) (p : Pos) (cs : List Char) :
    Tracks q t p [] cs (skipBlanksRound u) (skipBlanksRound u) Left fun r rest =>
      ((∀ d ∈ cs.head?, isBlank d = false) → r = .inr () ∧ rest = cs) ∧ Shrinks cs r rest := by
  refine .peek (fun _ _ _ hsuffix _ hrest => absurd (List.suffix_nil.mp hsuffix) hrest)
    (fun d ds hcs => ?_) fun hcs r hr => ?_
  · subst hcs
    by_cases hd : isBlank d = true
    · simp only [hd, if_true]
      refine .take? (fun e es hes => .pure ⟨fun h => ?_, fun _ _ => ?_⟩) fun h => by cases h
      · rw [h d rfl] at hd
        cases hd
      · rw [hes, List.length_cons]
        omega
    · simp only [hd, Bool.false_eq_true, if_false]
      exact .pure ⟨fun _ => ⟨rfl, rfl⟩, nofun⟩
  · subst hcs
    cases r with
    | none => exact .pure ⟨fun _ => ⟨rfl, rfl⟩, nofun⟩
    | some d =>
      exact .pure_of_not_need hr.not_same (fun h => h rfl) ⟨fun _ => ⟨rfl, rfl⟩, nofun⟩

/-- Blanks are skipped alike if they do not come to the end, and a text that begins with none is
left alone. -/
theorem tracks_skipBlanks :
    Tracks q t p [] cs skipBlanks skipBlanks Left fun _ rest =>
      (∀ d ∈ cs.head?, isBlank d = false) → rest = cs := by
  refine Tracks.loop (τ := Cursor) (P := fun _ cs _ rest =>
    (∀ d ∈ cs.head?, isBlank d = false) → rest = cs) tracks_skipBlanksRound ?_ ?_ ?_ ?_ ()
  · exact fun _ _ _ _ h hcs => (h.1 hcs).2
  · intro _ cs _ mid _ rest h _ _ _ hcs
    cases (h.1 hcs).1
  · exact fun _ _ h => h
  · exact fun _ _ _ _ _ hsuffix h => left_of_suffix hsuffix h

/-- A round over a line takes a character, and is done with the newline. -/
theorem tracks_skipLineRound (u : Unit) (p : Pos) (cs : List Char) :
    Tracks q t p [] cs (skipLineRound u) (skipLineRound u) Left fun r rest =>
      (cs ≠ [] → rest.length < cs.length) ∧ Shrinks cs r rest := by
  refine .take? (fun d ds hcs => ?_) fun hcs =>
    .pure ⟨⟨fun h => absurd hcs h, nofun⟩, fun h => h rfl⟩
  have hlt : ds.length < cs.length := by
    rw [hcs, List.length_cons]
    omega
  show Tracks q t p _ ds (if d = '\n' then _ else _) (if d = '\n' then _ else _) _ _
  split
  · exact .pure ⟨fun _ => hlt, fun _ _ => hlt⟩
  · exact .pure ⟨fun _ => hlt, fun _ _ => hlt⟩

/-- A line is skipped alike if it does not come to the end. -/
theorem tracks_skipLine :
    Tracks q t p [] cs skipLine skipLine Left fun _ rest => cs ≠ [] → rest.length < cs.length := by
  refine Tracks.loop (τ := Cursor) (P := fun _ cs _ rest => cs ≠ [] → rest.length < cs.length)
    tracks_skipLineRound ?_ ?_ ?_ ?_ ()
  · exact fun _ _ _ _ h => h.1
  · exact fun _ _ _ _ _ _ h _ hrest _ hcs => hrest.length_le.trans_lt (h.1 hcs)
  · exact fun _ _ h => h
  · exact fun _ _ _ _ _ hsuffix h => left_of_suffix hsuffix h

/-- A round over comments skips blanks and a comment, or stays where it is. -/
theorem tracks_skipCommentsRound (starts : List Char) (u : Unit) (p : Pos) (cs : List Char) :
    Tracks q t p [] cs (skipCommentsRound starts u) (skipCommentsRound starts u) Left fun r rest =>
      ((∀ d ∈ cs.head?, isBlank d = false ∧ d ∉ starts) → r = .inr () ∧ rest = cs) ∧
        Shrinks cs r rest := by
  refine tracks_skipBlanks.seq (F := fun _ mid r rest =>
    ((∀ d ∈ mid.head?, d ∉ starts) → r = .inr () ∧ rest = mid) ∧ Shrinks mid r rest)
    (fun _ front mid _ _ => ?_) (fun _ mid r rest hmid hcs _ h => ⟨fun hhead => ?_, fun b hb => ?_⟩)
    fun _ _ _ _ _ hsuffix _ hrest => left_of_suffix hsuffix hrest
  · -- After the blanks: a comment, something else, or the end of the first text.
    refine .peek (fun _ _ _ hsuffix _ hrest => absurd (List.suffix_nil.mp hsuffix) hrest)
      (fun d ds hmid => ?_) fun hmid r hr => ?_
    · subst hmid
      by_cases hd : d ∈ starts
      · simp only [List.contains_iff_mem.mpr hd, if_true]
        refine tracks_skipLine.seq (F := fun _ mid _ rest => rest = mid)
          (fun _ _ _ _ _ => .pure rfl)
          (fun _ mid _ rest hmid _ _ h => ⟨fun hstarts => ?_, fun _ _ => ?_⟩)
          fun _ _ _ _ _ hsuffix _ hrest => left_of_suffix hsuffix hrest
        · exact absurd hd (hstarts d rfl)
        · exact h ▸ hmid (List.cons_ne_nil d ds)
      · simp only [List.contains_iff_mem, hd, if_false]
        exact .pure ⟨fun _ => ⟨rfl, rfl⟩, nofun⟩
    · subst hmid
      cases r with
      | none => exact .pure ⟨fun _ => ⟨rfl, rfl⟩, nofun⟩
      | some d =>
        -- What the second reading sees there makes no difference, as nothing is left in the first.
        exact .pure_of_not_need hr.not_same (fun h => h rfl) ⟨fun _ => ⟨rfl, rfl⟩, nofun⟩
  · have hmid := hmid fun d hd => (hhead d hd).1
    rw [hmid] at h
    exact h.1 fun d hd => (hhead d hd).2
  · exact (h.2 b hb).trans_le hcs.length_le

/-- Comments are skipped alike if they do not come to the end. -/
theorem tracks_skipComments (starts : List Char) :
    Tracks q t p [] cs (skipComments starts) (skipComments starts) Left fun _ rest =>
      (∀ d ∈ cs.head?, isBlank d = false ∧ d ∉ starts) → rest = cs := by
  refine Tracks.loop (τ := Cursor) (P := fun _ cs _ rest =>
    (∀ d ∈ cs.head?, isBlank d = false ∧ d ∉ starts) → rest = cs) (tracks_skipCommentsRound starts)
    ?_ ?_ ?_ ?_ ()
  · exact fun _ _ _ _ h hcs => (h.1 hcs).2
  · intro _ cs _ mid _ rest h _ _ _ hcs
    cases (h.1 hcs).1
  · exact fun _ _ h => h
  · exact fun _ _ _ _ _ hsuffix h => left_of_suffix hsuffix h

/-! ## Literals -/

/-- A round over a literal takes a character that fits, or is done. -/
theorem tracks_literalRound (taken : List Char) (p : Pos) (cs : List Char) :
    Tracks q t p [] cs (literalRound q taken) (literalRound q taken) (fun _ => t.Stops q)
      fun r rest => cs.takeWhile q = [] ∧ r = .inr taken.reverse ∧ rest = cs ∨
        ∃ d, cs = d :: rest ∧ q d = true ∧ r = .inl (d :: taken) := by
  refine .peek (fun _ _ _ hsuffix _ h => h.mono hsuffix) (fun d ds hcs => ?_) fun hcs r hr => ?_
  · subst hcs
    by_cases hd : q d = true
    · simp only [hd, if_true]
      refine .take? (fun e es hes => ?_) fun h => by cases h
      cases hes
      exact .pure (.inr ⟨d, rfl, hd, rfl⟩)
    · simp only [hd, Bool.false_eq_true, if_false]
      exact .pure (.inl ⟨List.takeWhile_cons_of_neg hd, rfl, rfl⟩)
  · subst hcs
    cases r with
    | none => exact .pure (.inl ⟨rfl, rfl, rfl⟩)
    | some d =>
      simp only [(hr d rfl).2, Bool.false_eq_true, if_false]
      exact .pure (.inl ⟨rfl, rfl, rfl⟩)

/-- **A literal** is read alike before a character that ends it. -/
theorem tracks_literal :
    Tracks q t p [] cs (literal q) (literal q) (fun _ => t.Stops q) fun text rest =>
      text = cs.takeWhile q ∧ rest = cs.dropWhile q := by
  refine Tracks.loop (τ := Cursor) (P := fun taken cs text rest =>
    text = taken.reverse ++ cs.takeWhile q ∧ rest = cs.dropWhile q) tracks_literalRound ?_ ?_ ?_ ?_
    []
  · intro taken cs text rest h
    rcases h with ⟨hcs, htext, rfl⟩ | ⟨d, -, -, htext⟩
    · cases htext
      have happend := List.takeWhile_append_dropWhile (p := q) (l := rest)
      rw [hcs, List.nil_append] at happend
      rw [hcs, List.append_nil, happend]
      exact ⟨rfl, rfl⟩
    · cases htext
  · intro taken cs taken' mid text rest h _ _ hmid
    rcases h with ⟨-, htaken, -⟩ | ⟨d, rfl, hd, htaken⟩
    · cases htaken
    · cases htaken
      rw [List.takeWhile_cons_of_pos hd, List.dropWhile_cons_of_pos hd, hmid.1, hmid.2]
      simp
  · exact fun _ _ h => h
  · exact fun _ _ _ _ _ hsuffix h => h.mono hsuffix

/-! ## Strings -/

/-- The digits of a code are read alike. -/
theorem tracks_hexNumber (n count : Nat) :
    Tracks q t p [] cs (hexNumber n count) (hexNumber n count) (fun _ _ => True)
      fun _ _ => True := by
  induction count generalizing n p cs with
  | zero => exact .pure trivial
  | succ count ih =>
    refine .here (.take fun d ds _ => .after ?_)
    split
    · exact ih _
    · exact .throw

/-- So is the character of a code. -/
theorem tracks_hexChar (count : Nat) :
    Tracks q t p [] cs (hexChar count) (hexChar count) (fun _ _ => True) fun _ _ => True := by
  refine .here ((tracks_hexNumber 0 count).bind (fun n _ _ _ _ => ?_)
    fun _ _ _ _ _ _ _ _ => trivial)
  split
  · exact .pure trivial
  · exact .throw

/-- An escape is read alike whatever follows it. -/
theorem tracks_escape :
    Tracks q t p [] cs escape escape (fun _ _ => True) fun _ _ => True := by
  refine .take fun d ds _ => .after ?_
  repeat' split
  all_goals first | exact .pure trivial | exact tracks_hexChar _

/-- A round over a string takes a character or an escape, or is done with the quote. -/
theorem tracks_stringRound (delimiter : Char) (start : Pos) (taken : List Char) (p : Pos)
    (cs : List Char) :
    Tracks q t p [] cs (stringRound delimiter start taken)
      (stringRound delimiter (start.down t.lines) taken) (fun _ _ => True) fun _ _ => True := by
  refine .take? (fun d ds _ => .after ?_) fun _ => .throw
  show Tracks q t _ [] ds (if d = '\\' then _ else _) (if d = '\\' then _ else _) _ _
  split
  · exact tracks_escape.bind (fun _ _ _ _ _ => .pure trivial) fun _ _ _ _ _ _ _ _ => trivial
  · split
    · exact .pure trivial
    · exact .pure trivial

/-- Loops that need nothing of what follows. -/
theorem tracks_enclosed {β α : Type} {step₁ step₂ : β → CursorM (β ⊕ α)}
    (hstep : ∀ b p cs, Tracks q t p [] cs (step₁ b) (step₂ b) (fun _ _ => True) fun _ _ => True)
    (b : β) :
    Tracks q t p [] cs (Cursor.loop step₁ b) (Cursor.loop step₂ b) (fun _ _ => True)
      fun _ _ => True :=
  Tracks.loop (τ := Cursor) (R := fun _ _ _ _ => True) (P := fun _ _ _ _ => True) hstep
    (fun _ _ _ _ h => h) (fun _ _ _ _ _ _ _ _ _ h => h) (fun _ _ h => h)
    (fun _ _ _ _ _ _ h => h) b

/-- **A string** is read alike whatever follows. -/
theorem tracks_string :
    Tracks q t p [] cs string string (fun _ _ => True) fun _ rest =>
      rest.length < cs.length := by
  refine .here (.take fun d ds hcs => ?_)
  refine Tracks.seq (F := fun _ _ _ _ => True) (tracks_enclosed (tracks_stringRound d _) [])
    (fun _ _ _ _ _ => .pure trivial) ?_ fun _ _ _ _ _ _ _ _ => trivial
  intro _ mid _ rest _ hmid hrest _
  have hlength := (hrest.trans hmid).length_le
  rw [hcs, List.length_cons]
  omega

/-! ## Characters, integers, symbols and IRIs -/

/-- What stops after characters that do not, stops without them. -/
theorem stops_of_append {back mid : List Char} (hback : ∀ d ∈ back, q d = true)
    (h : t.Stops q (back ++ mid)) : t.Stops q mid := by
  obtain ⟨d, hd, hq⟩ := h
  rw [List.append_assoc, List.mem_append] at hd
  rcases hd with hd | hd
  · rw [hback d hd] at hq
    cases hq
  · exact ⟨d, hd, hq⟩

/-- **A character.** What is put back is part of the literal, so this too is read alike before what
ends that. -/
theorem tracks_character (hline : q '\n' = false) (sp : Spelling) :
    Tracks q t p [] cs (character q sp) (character q sp) (fun _ => t.Stops q)
      fun _ _ => True := by
  refine tracks_literal.seqBack (F := fun _ mid _ rest => t.Stops q rest → t.Stops q mid)
    (fun text front mid hcs hmid => ?_) (fun _ _ _ _ _ _ _ => trivial) fun _ _ _ _ _ h => h
  obtain ⟨htext, hmid⟩ := hmid
  -- The literal that was taken is the text in front.
  have hfront : front = text := by
    rw [← List.takeWhile_append_dropWhile (p := q) (l := cs), ← htext, ← hmid] at hcs
    exact (List.append_cancel_right hcs).symm
  have hatoms : ∀ d ∈ text, q d = true := by
    rw [htext]
    exact fun d hd => List.mem_takeWhile_imp hd
  subst hfront
  cases front with
  | nil =>
    show Tracks q t _ [] mid (take .character) (take .character) _ _
    rw [← bind_pure (take .character)]
    refine .take fun d ds hds => .pure fun h => ?_
    exact h.mono (hds ▸ List.suffix_cons d ds)
  | cons d back =>
    dsimp only
    have hback : ∀ e ∈ back, q e = true := fun e he => hatoms e (List.mem_cons_of_mem d he)
    cases sp.charNamed? (d :: back) with
    | some named => exact .pure fun h => h
    | none =>
      show Tracks q t _ ([d] ++ back) mid (pushBack back >>= fun _ => pure d)
        (pushBack back >>= fun _ => pure d) _ _
      -- All but the first character is put back, and none of it ends a literal.
      refine Tracks.pushBack (τ := Cursor) (fun e he => ⟨hback e he, ?_⟩)
        (.pure (stops_of_append hback))
      rintro rfl
      rw [hback _ he] at hline
      cases hline

/-- A number in another radix is read alike if the literal ends alike. -/
theorem tracks_radixInteger (radix : Nat) :
    Tracks q t p [] cs (radixInteger q radix) (radixInteger q radix) (fun _ => t.Stops q)
      fun _ _ => True := by
  refine .here (tracks_literal.bind (fun text _ _ _ _ => ?_)
    fun _ _ _ _ _ hsuffix _ h => h.mono hsuffix)
  split
  · exact .pure trivial
  · exact .throw

/-- A round over a name between bars takes a character, or is done with the bar. -/
theorem tracks_barredSymbolRound (start : Pos) (taken : List Char) (p : Pos) (cs : List Char) :
    Tracks q t p [] cs (barredSymbolRound start taken)
      (barredSymbolRound (start.down t.lines) taken) (fun _ _ => True) fun _ _ => True := by
  refine .take? (fun d ds _ => .after ?_) fun _ => .throw
  show Tracks q t _ [] ds (if d = '|' then _ else _) (if d = '|' then _ else _) _ _
  split
  · exact .pure trivial
  · split
    · exact .take? (fun _ _ _ => .pure trivial) fun _ => .throw
    · exact .pure trivial

theorem tracks_barredSymbol (start : Pos) :
    Tracks q t p [] cs (barredSymbol start) (barredSymbol (start.down t.lines)) (fun _ _ => True)
      fun _ _ => True :=
  tracks_enclosed (tracks_barredSymbolRound start) []

/-- A round over an IRI takes a character, or is done with the bracket. -/
theorem tracks_bracketedIriRound (start : Pos) (taken : List Char) (p : Pos) (cs : List Char) :
    Tracks q t p [] cs (bracketedIriRound start taken)
      (bracketedIriRound (start.down t.lines) taken) (fun _ _ => True) fun _ _ => True := by
  refine .take? (fun d ds _ => .after ?_) fun _ => .throw
  show Tracks q t _ [] ds (if d = '>' then _ else _) (if d = '>' then _ else _) _ _
  split
  · exact .pure trivial
  · exact .pure trivial

theorem tracks_bracketedIri (start : Pos) :
    Tracks q t p [] cs (bracketedIri start) (bracketedIri (start.down t.lines)) (fun _ _ => True)
      fun _ _ => True :=
  tracks_enclosed (tracks_bracketedIriRound start) []

end SExpr.Lexeme
