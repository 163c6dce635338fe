import SExpr.Proofs.Sparql.Terms

/-!
# A blank for a datatype

The datatype of a literal is the token that follows the carets, with nothing skipped in between, and
a character that belongs to no other token is one by itself. So a blank after the carets is taken
for a datatype, whatever follows it: reading does not fail there.

* **`yields_basicToken_blank`**: a blank that is not skipped is a token.
* **`meaning_blank`**: it stands for itself.
* **`read_blank_datatype`**: the literal that is read.
-/

namespace SExpr

open ReadM Text

theorem ne_of_isBlank {c : Char} (hc : isBlank c = true) {d : Char} (hd : isBlank d = false) :
    c ≠ d := by
  rintro rfl
  rw [hc] at hd
  cases hd

theorem not_mem_of_isBlank {c : Char} (hc : isBlank c = true) {ds : List Char}
    (hds : ds.all (!isBlank ·) = true) : c ∉ ds := by
  intro hmem
  have hd := List.all_eq_true.mp hds c hmem
  exact ne_of_isBlank hc (by simpa using hd) rfl

theorem bracketToken?_of_isBlank {brackets : List Bracket} {c : Char} (hc : isBlank c = true) :
    bracketToken? brackets c = none := by
  rw [bracketToken?, List.findSome?_eq_none_iff]
  intro b _
  rw [if_neg (ne_of_isBlank hc (by cases b <;> decide)),
    if_neg (ne_of_isBlank hc (by cases b <;> decide))]

theorem ofChar?_of_isBlank {c : Char} (hc : isBlank c = true) : Quote.ofChar? c = none := by
  rw [Quote.ofChar?, if_neg (ne_of_isBlank hc (by decide)), if_neg (ne_of_isBlank hc (by decide))]

/-- A character is no word of another length. -/
theorem sameIgnoringCase_singleton_eq_false {word : List Char} (hword : word.length ≠ 1)
    (c : Char) : sameIgnoringCase [c] word = false := by
  rw [sameIgnoringCase, beq_eq_false_iff_ne]
  intro heq
  exact hword (by simpa using (congrArg List.length heq).symm)

/-- **A blank that is not skipped** is a token for the value that the dialect gives to it. -/
theorem Lexicon.yields_basicToken_blank {σ : Type} {l : Lexicon σ} {c : Char}
    (hc : isBlank c = true) {m m' : σ} {v : Value} {rest : List Char}
    (hatom : ∀ p, Yields (l.atom [c] p) m rest v m' rest) :
    Yields l.basicToken m (c :: rest) (.value v) m' rest := by
  -- No literal begins here, so the character is taken alone.
  have hstop : ∀ d ∈ (c :: rest).head?, l.isAtomChar d = false := by
    intro d hd
    rw [List.head?_cons, Option.mem_some_iff] at hd
    exact isAtomChar_eq_false_iff.mpr (.inl (hd ▸ hc))
  refine .here fun p => (Yields.onCursor (Cursor.yields_peek _) m).bind ?_
  simp only [List.head?_cons, bracketToken?_of_isBlank hc, ofChar?_of_isBlank hc,
    Option.isSome_none, Bool.false_eq_true, if_false]
  refine (Yields.onCursor (Lexeme.yields_literal_append [] rfl hstop) m).bind ?_
  exact (Yields.onCursor (Cursor.yields_take _ _ _) m).bind ((hatom p).bind (.pure _ _ _))

/-- A token that is a value is read where nothing is to be skipped. -/
theorem Dialect.yields_read_of_token {σ : Type} {d : Dialect σ} {m m' : σ} {cs rest : List Char}
    {v : Value} (hstands : ∀ room, d.Stands (d.nested room) cs)
    (h : ∀ room, Yields (d.token (d.nested room)) m cs (.value v) m' rest) :
    Yields d.read m cs v m' rest := by
  intro s hm hs
  have hvalue : Yields (d.value (d.nested s.room)) m cs v m' rest := by
    unfold Dialect.value
    rw [item_bind]
    exact (hstands _ [] m rfl).bind (.here fun p => (h _).bind (.pure _ _ _))
  exact hvalue s hm hs

namespace Dialect.Sparql

variable {w : Char}

/-- A blank is neither a word nor a numeral, and has no sigil. -/
theorem atom_blank_alone (hw : isBlank w = true) (m : Memory) :
    atom [w] m = (.symbol (String.ofList [w]), m) := by
  have hwords : ∀ word ∈ ["base", "nil", "true", "false"],
      sameIgnoringCase [w] word.toList = false := by
    have hlength : ∀ word ∈ ["base", "nil", "true", "false"], word.toList.length ≠ 1 := by decide
    exact fun word hword => sameIgnoringCase_singleton_eq_false (hlength word hword) w
  have hdot : [w] ≠ ['.'] := by simpa using ne_of_isBlank hw (by decide)
  have ha : [w] ≠ ['a'] := by simpa using ne_of_isBlank hw (by decide)
  have hnumeral : w ∉ Numeral.numeralChars := not_mem_of_isBlank hw (by decide)
  have hblank : '_' ≠ w := (ne_of_isBlank hw (by decide)).symm
  have hvar : queryVar? [w] = none :=
    queryVar?_cons_eq_none (not_mem_of_isBlank hw (by decide)) []
  rw [atom_of_no_word hdot ha hwords, wordless]
  simp [Numeral.isNumeral_eq_false hnumeral List.mem_cons_self, after?, hblank, hvar]

/-- So it stands for itself, whatever is remembered. -/
theorem meaning_blank (hw : isBlank w = true) (m : Memory) :
    meaning [w] m = (.symbol (String.ofList [w]), m) := by
  have hcolon : w ≠ ':' := ne_of_isBlank hw (by decide)
  have hprefix : sameIgnoringCase [w] "prefix".toList = false :=
    sameIgnoringCase_singleton_eq_false (by decide) w
  have hcut : cutAt ':' [w] = ([w], none) := cutAt_of_not_mem (by simpa using hcolon.symm)
  -- Without a colon it is neither a name to be defined nor a prefixed one.
  rw [meaning, atom_blank_alone hw, classify, String.toList_ofList, symbol, hprefix, hcut]
  simp [hcolon]

/-- A blank is a token where nothing is skipped. -/
theorem yields_tokenIn_blank (hw : isBlank w = true) (m : Memory) (rest allowance : List Char) :
    Yields (tokenIn allowance) m (w :: rest) (.value (.symbol (String.ofList [w]))) m rest := by
  have hfirst : ∀ c ∈ (w :: rest).head?, c ∉ ['"', '\'', '<'] := by
    rintro _ ⟨⟩
    exact not_mem_of_isBlank hw (by decide)
  have hbasic := Lexicon.yields_basicToken_blank (l := lexicon) hw fun _ =>
    Yields.onMemory (atom [w]) m rest
  refine yields_tokenIn (fun datatype => ?_) allowance
  have htoken : Yields (tokenWith datatype) m (w :: rest) _ _ rest :=
    yields_tokenWith_meaning hfirst hbasic
  rwa [meaning_blank hw] at htoken

/-- A string whose datatype is the blank. -/
theorem yields_token_blank {quote : Quote} {cs text : List Char} (h : Quoted.Spells quote cs text)
    (hw : isBlank w = true) (m : Memory) (rest : List Char) :
    let l : Literal :=
      { value := String.ofList text, quote, datatype := some { text := String.ofList [w] } }
    Yields token m (quote.char :: (cs ++ quote.char :: '^' :: '^' :: w :: rest))
      (.value (mention (.literal l) m).1) (mention (.literal l) m).2 rest := by
  -- The token within the literal is read where the carets end, so it begins with the blank.
  have hlexeme := Lexeme.yields_string_spelled h ('^' :: '^' :: w :: rest)
  rw [List.append_cons cs, ← List.cons_append] at hlexeme ⊢
  exact yields_token_quoted fun allowance =>
    yields_quoted_typed hlexeme (yields_datatype (yields_tokenIn_blank hw m rest allowance) rfl)

/-- **A blank after the carets is the datatype**: in any session, however the text of the literal is
spelled and whatever comes after the blank. -/
theorem read_blank_datatype {quote : Quote} {cs text : List Char} (h : Quoted.Spells quote cs text)
    (hw : isBlank w = true) (rest : List Char) (s : Session Memory)
    (hs : s.cursor.Before (quote.char :: (cs ++ quote.char :: '^' :: '^' :: w :: rest))) :
    let l : Literal :=
      { value := String.ofList text, quote, datatype := some { text := String.ofList [w] } }
    ∃ c', c'.Before rest ∧
      sparql.read s = .ok (.term s.memory.handles (.literal l))
        { s with cursor := c', memory.handles := s.memory.handles + 1 } :=
  yields_read_of_token
    (fun _ => stands (bare_cons (by cases quote <;> decide) (by cases quote <;> decide) _))
    (fun _ => yields_token_blank h hw s.memory rest) s rfl hs

theorem read_blank_datatype_tab :
    let s : Session Memory := .start (.ofString "'a\\u0062'^^\tx") {}
    let l : Literal := { value := "ab", quote := .single, datatype := some { text := "\t" } }
    Quoted.Spells .single "a\\u0062".toList "ab".toList ∧ isBlank '\t' = true ∧
      s.cursor.Before ('\'' :: ("a\\u0062".toList ++ '\'' :: '^' :: '^' :: '\t' :: ['x'])) ∧
      ∃ c', c'.Before ['x'] ∧
        sparql.read s =
          .ok (.term 0 (.literal l)) { s with cursor := c', memory.handles := 1 } := by
  have hcode : Quoted.Escapes ['u', '0', '0', '6', '2'] 'b' := .code (by decide) (by decide)
  have hspells : Quoted.Spells .single "a\\u0062".toList "ab".toList :=
    .bare (by decide) (by decide) (.escaped hcode .nil)
  have hblank : isBlank '\t' = true := by decide
  refine ⟨hspells, hblank, ⟨by decide, rfl⟩, ?_⟩
  exact read_blank_datatype hspells hblank ['x'] _ ⟨by decide, rfl⟩

/-- **Reading does not fail there**, although what follows the blank is an IRI. -/
theorem read_space_datatype :
    ∃ s', sparql.read (.start (.ofString "\"x\"^^ <http://a/>") {}) =
      .ok (.term 0 (.literal { value := "x", datatype := some { text := " " } })) s' := by
  have hspells : Quoted.Spells .double ['x'] ['x'] := .bare (by decide) (by decide) .nil
  have htoken := yields_token_blank hspells (w := ' ') (by decide) {} "<http://a/>".toList
  have hread : Yields sparql.read {} _ _ _ _ := yields_read_of_token
    (fun _ => stands (bare_cons (by decide) (by decide) _)) fun _ => htoken
  obtain ⟨c', -, hc'⟩ := hread (.start (.ofString "\"x\"^^ <http://a/>") {}) rfl ⟨by decide, rfl⟩
  exact ⟨_, hc'⟩

end Dialect.Sparql

end SExpr
