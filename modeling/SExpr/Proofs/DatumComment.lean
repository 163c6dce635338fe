import SExpr.Proofs.Sequence

/-!
# Datum comments

The mark `#;` takes out the next datum. What comes after that is read as if it began further down.

* **`yields_triviaRound_datum`**: a round over blanks and comments takes one datum.
* **`trivia_datum`**: if a document of one value is taken out, then the blanks and comments go on at
  the text that follows it.
* **`readAll_datumComment`**: so that text is read as it is alone.
-/

namespace SExpr.Dialect

open ReadM

/-- The place after some lines. -/
theorem start_advanceAll_newline (cs : List Char) :
    Pos.start.advanceAll (cs ++ ['\n']) = Pos.start.down (1 + cs.count '\n') := by
  rw [Pos.advanceAll_newlines]
  show (⟨0 + cs.count '\n' + 1, 0⟩ : Pos) = ⟨0 + (1 + cs.count '\n'), 0⟩
  rw [Nat.zero_add, Nat.zero_add, Nat.add_comm]

/-- A document further down is read as it is alone, but for the place of a failure. -/
theorem Known.readAll_down {σ : Type} {d : Dialect σ} (hd : d.Known) {m : σ} {limit lines : Nat}
    {text : List Char} {c : Cursor}
    (hc : c.At d.isAtomChar (Pos.start.down lines) text none) :
    After [] lines (d.readAll (.fresh text none m limit))
      (d.readAll { Session.fresh text none m limit with cursor := c }) := by
  have halone := Session.fresh_at d.isAtomChar text none m limit
  have htracks := hd.tracked.readAll (t := { lines }) (.fresh text none m limit) c halone
    (by rw [List.append_nil]; exact hc)
  cases hres : d.readAll (.fresh text none m limit) with
  | ok vs u =>
    rw [hres] at htracks
    obtain ⟨_, _, -, -, -, hsecond⟩ := htracks
    obtain ⟨c', hread, -⟩ := hsecond (.inl ⟨rfl, rfl, rfl⟩)
    exact ⟨c', hread⟩
  | error e u =>
    rw [hres] at htracks
    obtain ⟨_, _, _, -, -, hsecond⟩ := htracks
    obtain ⟨c', hread, -⟩ := hsecond ⟨rfl, rfl, rfl⟩
    exact ⟨c', hread⟩

namespace Scheme

variable {room limit : Nat} {cs rest commented text : List Char} {v : Value}

/-- What is commented out is one level deeper. -/
theorem yields_triviaRound_datum
    (h : Yields (scheme.value (scheme.nested room)) () cs v () rest) :
    Yields (triviaRound (scheme.nested (room + 1)) ()) () ('#' :: ';' :: cs) (.inl ()) () rest := by
  have hskip : CursorM.Yields (Lexeme.skipComments [';']) ([] ++ '#' :: ';' :: cs) ()
      ('#' :: ';' :: cs) :=
    Lexeme.yields_skipComments_gap rfl (bare_cons (by decide) (by decide) _)
  rw [triviaRound_eq]
  apply (Yields.onCursor hskip ()).bind
  apply (Yields.onCursor (Cursor.yields_peek _) ()).bind
  rw [List.head?_cons, if_pos rfl]
  refine .here fun p => ?_
  apply (Yields.onCursor (Cursor.yields_take? _) ()).bind
  apply (Yields.onCursor (Cursor.yields_peek _) ()).bind
  apply (Yields.onCursor (Cursor.yields_take? _) ()).bind
  exact (h.within .mark).bind (.pure _ _ _)

/-- The blanks and comments before a document that comes after a datum comment. -/
theorem trivia_datum (h : scheme.Document () limit commented [v]) {s : Session Unit}
    (hs : s.cursor.At schemeLexicon.isAtomChar .start ('#' :: ';' :: (commented ++ '\n' :: text))
      none) :
    ∃ c, c.At schemeLexicon.isAtomChar (Pos.start.down (1 + commented.count '\n')) text none ∧
      trivia (scheme.nested (limit + 1)) s
        = trivia (scheme.nested (limit + 1)) { s with cursor := c } := by
  have hn (t : Twin) := scheme_tracked.nested t (limit + 1)
  obtain ⟨_, rest, hvs, hblank⟩ := h.yieldsAll .scheme scheme_repeats le_rfl (.inr ⟨text, rfl⟩)
  have hblank := (scheme_repeats.trivia (scheme_repeats.nested (Nat.le_succ limit))).yields hblank
  cases hvs with
  | cons hitem _ hnil =>
    cases hnil
    -- The first round takes the mark and the datum.
    have hround := yields_triviaRound_datum (hitem.bind (.pure _ _ _))
    obtain ⟨c₁, hc₁, hround⟩ := hround s rfl hs.before
    obtain ⟨front, mid, hfront, hat, -⟩ :=
      (tracks_triviaRound (hn {}) () .start _).of_ok hs hround
    have hmore : trivia (scheme.nested (limit + 1)) s
        = trivia (scheme.nested (limit + 1)) { s with cursor := c₁ } :=
      HasCursor.loop_of_more (τ := Session Unit) (tracks_triviaRound (hn {}))
        (fun _ _ _ _ h => h.2) hs hround
    obtain rfl : mid = rest ++ '\n' :: text := hat.unread.symm.trans hc₁.unread
    -- What is left of the commented document goes on into the text after it.
    obtain ⟨c₀, hc₀⟩ := Cursor.exists_at schemeLexicon.isAtomChar (Pos.start.advanceAll front) rest
      none
    obtain ⟨c₂, hc₂, halone⟩ := hblank { s with cursor := c₀ } rfl hc₀.before
    obtain ⟨c, hc, hgoes⟩ := trivia_goesOn hn (Known.scheme.uniform.nested (limit + 1)) _ rest
      { s with cursor := c₀ } c₁ _ hc₀ hat halone hc₂.unread
    have htaken : front ++ (rest ++ ['\n']) = ('#' :: ';' :: commented) ++ ['\n'] := by
      refine List.append_cancel_right (?_ : _ ++ text = _ ++ text)
      simpa using hfront.symm
    rw [← Pos.advanceAll_append, htaken, start_advanceAll_newline] at hc
    have hcount : ('#' :: ';' :: commented).count '\n' = commented.count '\n' := by
      rw [List.count_cons_of_ne (by decide), List.count_cons_of_ne (by decide)]
    rw [hcount] at hc
    exact ⟨c, hc, hmore.trans hgoes⟩

end Scheme

/-- **A datum comment takes out one datum.** If a document of one value can be read with one level
less, then after a datum mark it makes no difference to the document that follows it on a new line,
but for the place of a failure. -/
theorem readAll_datumComment (limit : Nat) (commented text : List Char) (v : Value)
    (h : scheme.Document () limit commented [v]) :
    After [] (1 + commented.count '\n') (scheme.readAll (.fresh text none () (limit + 1)))
      (scheme.readAll (.fresh ('#' :: ';' :: (commented ++ '\n' :: text)) none () (limit + 1))) := by
  let s : Session Unit := .fresh ('#' :: ';' :: (commented ++ '\n' :: text)) none () (limit + 1)
  have hs := Session.fresh_at scheme.isAtomChar ('#' :: ';' :: (commented ++ '\n' :: text)) none ()
    (limit + 1)
  obtain ⟨c, hc, htrivia⟩ := Scheme.trivia_datum h hs
  let s' : Session Unit := { Session.fresh text none () (limit + 1) with cursor := c }
  have hs' : s'.cursor.At scheme.isAtomChar (Pos.start.down (1 + commented.count '\n')) text none :=
    hc
  -- Only the first round skips the comment. From there on the two sessions stand in the same text.
  have hround : scheme.readAllRound [] s = scheme.readAllRound [] s' := by
    rw [readAllRound_eq, readAllRound_eq, item_bind, item_bind]
    exact bind_congr_left htrivia
  have hloop : scheme.readAll s = scheme.readAll s' :=
    loop_congr (τ := Session Unit) scheme_tracked.readAllRound (fun _ _ _ _ h => h.1) hs hs' hround
  show After _ _ _ (scheme.readAll s)
  rw [hloop]
  exact Known.scheme.readAll_down hc

/-- What is commented out begins with a line that is a comment, and ends with another one. A bracket
too many comes after it. -/
theorem readAll_datumComment_nested :
    scheme.Document () 2 "#!x\n(#;a [#\\b]) ;c".toList [.list [.list [.atom (.char 'b')]]] ∧
      After [] (1 + "#!x\n(#;a [#\\b]) ;c".toList.count '\n')
        (scheme.readAll (.fresh "d )".toList none () 3))
        (scheme.readAll (.fresh
          ('#' :: ';' :: ("#!x\n(#;a [#\\b]) ;c".toList ++ '\n' :: "d )".toList)) none () 3)) := by
  have hread : scheme.Document () 2 "#!x\n(#;a [#\\b]) ;c".toList
      [.list [.list [.atom (.char 'b')]]] := ⟨_, by cbv⟩
  exact ⟨hread, readAll_datumComment 2 _ "d )".toList _ hread⟩

end SExpr.Dialect
