import SExpr.Proofs.Lexeme
import SExpr.Proofs.Numeral
import SExpr.Proofs.ReadBack

/-!
# Tokens that all dialects have

What a dialect's own rules do not claim is a bracket, a string or a literal. This module says what
these tokens yield, for any dialect that has round brackets.
-/

namespace SExpr

open ReadM Text Dialect

variable {σ : Type}

/-! ## Atom characters -/

/-- What a literal cannot have are blanks and the brackets of the dialect. -/
theorem isAtomChar_eq_false_iff {brackets : List Bracket} {c : Char} :
    isAtomChar brackets c = false ↔
      isBlank c = true ∨ ∃ b ∈ brackets, c = b.opening ∨ c = b.closing := by
  simp only [isAtomChar, Bool.and_eq_false_iff, Bool.not_eq_false', List.any_eq_true,
    Bool.or_eq_true, beq_iff_eq]

/-- What a literal can have is everything else. -/
theorem isAtomChar_eq_true_iff {brackets : List Bracket} {c : Char} :
    isAtomChar brackets c = true ↔
      isBlank c = false ∧ ∀ b ∈ brackets, c ≠ b.opening ∧ c ≠ b.closing := by
  simp only [isAtomChar, Bool.and_eq_true, Bool.not_eq_true', List.any_eq_false, Bool.or_eq_true,
    beq_iff_eq, not_or, ne_eq]

/-- Other characters than blanks and the four brackets are fine in all dialects. -/
theorem isAtomChar_of_not_mem {brackets : List Bracket} {c : Char} (hblank : isBlank c = false)
    (hc : c ∉ ['(', ')', '[', ']']) : isAtomChar brackets c = true := by
  simp only [List.mem_cons, List.not_mem_nil, or_false, not_or] at hc
  refine isAtomChar_eq_true_iff.mpr ⟨hblank, fun b _ => ?_⟩
  cases b
  · exact ⟨hc.1, hc.2.1⟩
  · exact ⟨hc.2.2.1, hc.2.2.2⟩

/-- A character that a literal can have is no bracket. -/
theorem bracketToken?_of_isAtomChar {brackets : List Bracket} {c : Char}
    (hc : isAtomChar brackets c = true) : bracketToken? brackets c = none := by
  rw [bracketToken?, List.findSome?_eq_none_iff]
  intro b hb
  obtain ⟨hopen, hclose⟩ := (isAtomChar_eq_true_iff.mp hc).2 b hb
  rw [if_neg hopen, if_neg hclose]

/-- What is neither a blank nor a bracket can stand in a literal. -/
theorem isAtomChar_of_bracketToken? {brackets : List Bracket} {c : Char}
    (hblank : isBlank c = false) (h : bracketToken? brackets c = none) :
    isAtomChar brackets c = true := by
  refine isAtomChar_eq_true_iff.mpr ⟨hblank, fun b hb => ?_⟩
  rw [bracketToken?, List.findSome?_eq_none_iff] at h
  have hb := h b hb
  split at hb
  · cases hb
  · next hopen =>
    split at hb
    · cases hb
    · next hclose => exact ⟨hopen, hclose⟩

/-- A bracket is no value. -/
theorem bracketToken?_ne_value {brackets : List Bracket} {c : Char} {token : Token}
    (h : bracketToken? brackets c = some token) (v : Value) : token ≠ .value v := by
  rintro rfl
  obtain ⟨b, -, hb⟩ := List.exists_of_findSome?_eq_some h
  split at hb
  · cases hb
  · split at hb <;> cases hb

namespace Lexicon

variable {l : Lexicon σ}

/-- A literal ends where a token may end. -/
theorem isAtomChar_of_delimits (hround : .round ∈ l.brackets) {rest : List Char}
    (hrest : Delimits rest) : ∀ c ∈ rest.head?, l.isAtomChar c = false := by
  intro c hc
  refine isAtomChar_eq_false_iff.mpr ((hrest c hc).imp_right ?_)
  rintro rfl
  exact ⟨.round, hround, .inr rfl⟩

/-! ## Brackets and the end -/

theorem bracketToken?_opener (hround : l.brackets.head? = some .round) :
    bracketToken? l.brackets '(' = some (.opener .round) := by
  cases h : l.brackets with
  | nil => simp [h] at hround
  | cons b bs =>
    rw [h, List.head?_cons, Option.some.injEq] at hround
    rw [hround, bracketToken?, List.findSome?_cons]
    rfl

theorem bracketToken?_closer (hround : l.brackets.head? = some .round) :
    bracketToken? l.brackets ')' = some (.closer .round) := by
  cases h : l.brackets with
  | nil => simp [h] at hround
  | cons b bs =>
    rw [h, List.head?_cons, Option.some.injEq] at hround
    rw [hround, bracketToken?, List.findSome?_cons]
    rfl

/-- A bracket is a token by itself. -/
theorem yields_basicToken_bracket {c : Char} {token : Token}
    (hc : bracketToken? l.brackets c = some token) (m : σ) (cs : List Char) :
    Yields l.basicToken m (c :: cs) token m cs := by
  refine .here fun p => (Yields.onCursor (Cursor.yields_peek (c :: cs)) m).bind ?_
  simp only [List.head?_cons, hc]
  exact (Yields.onCursor (Cursor.yields_take? (c :: cs)) m).bind (.pure _ _ _)

theorem yields_basicToken_ended (m : σ) : Yields l.basicToken m [] .ended m [] :=
  .here fun _ => (Yields.onCursor (Cursor.yields_peek []) m).bind (.pure _ _ _)

/-! ## Strings and literals -/

/-- Quotes are no brackets. -/
theorem bracketToken?_quote (brackets : List Bracket) (quote : Quote) :
    bracketToken? brackets quote.char = none := by
  rw [bracketToken?, List.findSome?_eq_none_iff]
  intro b _
  cases b <;> cases quote <;> rfl

/-- A written string is a token for that string. -/
theorem yields_basicToken_string (quote : Quote) (text : List Char) (m : σ) (rest : List Char) :
    Yields l.basicToken m (Quoted.written quote text ++ rest)
      (.value (.atom (.string (String.ofList text) quote))) m rest := by
  refine .here fun p => (Yields.onCursor (Cursor.yields_peek _) m).bind ?_
  have hquote : (Quote.ofChar? quote.char).isSome = true := by cases quote <;> rfl
  simp only [Quoted.written, List.cons_append, List.head?_cons, bracketToken?_quote, hquote,
    if_true]
  exact (Yields.onCursor (Lexeme.yields_string quote text rest) m).bind (.pure _ _ _)

/-- A literal is a token for the value that the dialect gives to its text. -/
theorem yields_basicToken_literal (hround : .round ∈ l.brackets) {c : Char} {cs : List Char}
    (htext : (c :: cs).all l.isAtomChar = true) (hquote : Quote.ofChar? c = none) {m m' : σ}
    {v : Value} {rest : List Char} (hrest : Delimits rest)
    (hatom : ∀ p, Yields (l.atom (c :: cs) p) m rest v m' rest) :
    Yields l.basicToken m (c :: cs ++ rest) (.value v) m' rest := by
  have hc : SExpr.isAtomChar l.brackets c = true := by
    rw [List.all_cons, Bool.and_eq_true] at htext
    exact htext.1
  refine .here fun p => (Yields.onCursor (Cursor.yields_peek _) m).bind ?_
  simp only [List.cons_append, List.head?_cons, bracketToken?_of_isAtomChar hc, hquote,
    Option.isSome_none, Bool.false_eq_true, if_false]
  have hliteral := Lexeme.yields_literal_append _ htext (isAtomChar_of_delimits hround hrest)
  exact (Yields.onCursor hliteral m).bind ((hatom p).bind (.pure _ _ _))

end Lexicon

/-- A numeral or symbol is the atom of its text. -/
theorem yields_plainAtom {text : List Char} {a : Atom} (h : Numeral.atom text = .ok a) (p : Pos)
    (m : σ) (cs : List Char) : Yields (plainAtom text p) m cs (.atom a) m cs := by
  rw [plainAtom, h]
  exact .pure _ _ _

theorem sameIgnoringCase_cons_eq_false {c d : Char} (h : c.toLower ≠ d.toLower)
    (cs ds : List Char) : sameIgnoringCase (c :: cs) (d :: ds) = false := by
  simp [sameIgnoringCase, h]

/-- A character that a word does not have in either case makes a text different from it. -/
theorem sameIgnoringCase_eq_false_of_mem {c : Char} {cs word : List Char} (hc : c ∈ cs)
    (hword : c.toLower ∉ word.map Char.toLower) : sameIgnoringCase cs word = false := by
  rw [sameIgnoringCase, beq_eq_false_iff_ne]
  intro heq
  exact hword (heq ▸ List.mem_map_of_mem hc)

/-! ## Bare symbols -/

namespace Symbol

/-- A name that can stand bare: it has no character of another syntax, begins none, and is neither
a word of the dialect nor a number. -/
structure Bare (sp : Spelling) (cs : List Char) : Prop where
  ne_nil : cs ≠ []
  blank : ∀ c ∈ cs, isBlank c = false
  special : ∀ c ∈ cs, c ∉ ['(', ')', '[', ']', '|', '\\']
  first : ∀ c ∈ cs.head?, c ∉ ['\'', '#', ';', '"']
  word : ∀ w ∈ [sp.nil, sp.yes, sp.no], sameIgnoringCase cs w.toList = false
  atom : Numeral.atom cs = .ok (.symbol (String.ofList cs))

/-- A literal that is taken for a symbol is the symbol of its own name. -/
theorem atom_symbol {cs : List Char} {name : String} (h : Numeral.atom cs = .ok (.symbol name)) :
    name = String.ofList cs := by
  unfold Numeral.atom at h
  split at h
  · next hcs =>
    simp only [Except.ok.injEq, Atom.symbol.injEq] at h
    rw [hcs, ← h]
  · cases hn : Numeral.number? cs with
    | error cause => simp [hn, Except.map] at h
    | ok n =>
      cases n with
      | some n => simp [hn, Except.map] at h
      | none =>
        simp only [hn, Except.map, Except.ok.injEq, Atom.symbol.injEq] at h
        exact h.symm

/-- A name is written bare exactly if it can stand so. -/
theorem needsBars_eq_false_iff {sp : Spelling} {cs : List Char} :
    needsBars sp cs = false ↔ Bare sp cs := by
  have hspecial : "()[]|\\".toList = ['(', ')', '[', ']', '|', '\\'] := by decide
  have hfirst : "'#;\"".toList = ['\'', '#', ';', '"'] := by decide
  -- Both sides list the same conditions, one as tests and the other as properties.
  simp only [needsBars, hspecial, hfirst, Bool.or_eq_false_iff, List.any_eq_false,
    List.isEmpty_eq_false_iff, not_or, Bool.not_eq_true, List.contains_eq_mem,
    decide_eq_true_eq, Bool.or_eq_true]
  constructor
  · rintro ⟨⟨⟨⟨hne, hchars⟩, hhead⟩, hword⟩, hatom⟩
    refine ⟨hne, fun c hc => (hchars c hc).1, fun c hc => (hchars c hc).2, ?_, hword, ?_⟩
    · cases cs with
      | nil => simp
      | cons c cs => simpa using hhead
    · split at hatom
      · next name h => rw [h, atom_symbol h]
      · exact absurd hatom (by simp)
  · rintro ⟨hne, hblank, hspec, hhead, hword, hatom⟩
    refine ⟨⟨⟨⟨hne, fun c hc => ⟨hblank c hc, hspec c hc⟩⟩, ?_⟩, hword⟩, ?_⟩
    · cases cs with
      | nil => simp
      | cons c cs => simpa using hhead
    · rw [hatom]

/-- A bare name is a literal whatever the brackets are. -/
theorem Bare.all_isAtomChar {sp : Spelling} {cs : List Char} (h : Bare sp cs)
    (brackets : List Bracket) : cs.all (isAtomChar brackets) = true := by
  rw [List.all_eq_true]
  intro c hc
  have hspecial := h.special c hc
  apply isAtomChar_of_not_mem (h.blank c hc)
  simp only [List.mem_cons, not_or] at hspecial ⊢
  simp [hspecial]

end Symbol

/-! ## Dialects made of these tokens -/

namespace Dialect

/-- Before a token the dialect skips blanks and the comments that begin with one of `starts`, and
all that does not begin with one of `own` is a token that all dialects have. -/
structure Plain (d : Dialect σ) (starts own : List Char) : Prop where
  round : d.brackets.head? = some .round
  stands : ∀ {nested cs}, Lexeme.Bare starts cs → d.Stands nested cs
  token : ∀ {nested m cs t m' rest}, (∀ c ∈ cs.head?, c ∉ own) →
    Yields d.basicToken m cs t m' rest → Yields (d.token nested) m cs t m' rest

/-- A character that is no blank and begins no comment makes a text bare. -/
theorem bare_cons {starts : List Char} {c : Char} (hc : isBlank c = false) (hstarts : c ∉ starts)
    (cs : List Char) : Lexeme.Bare starts (c :: cs) := by
  intro e he
  rw [List.head?_cons, Option.mem_some_iff] at he
  subst he
  exact ⟨hc, by simpa using hstarts⟩

namespace Plain

variable {d : Dialect σ} {starts own : List Char}

theorem round_mem (hd : d.Plain starts own) : .round ∈ d.brackets :=
  List.mem_of_head? hd.round

/-- A token that does not begin with a character of the dialect's own is one that all dialects have.
-/
theorem token_cons (hd : d.Plain starts own) {nested : Nested σ} {m m' : σ} {c : Char}
    {cs rest : List Char} {t : Token} (hc : c ∉ own)
    (h : Yields d.basicToken m (c :: cs) t m' rest) :
    Yields (d.token nested) m (c :: cs) t m' rest := by
  refine hd.token ?_ h
  intro e he
  rw [List.head?_cons, Option.mem_some_iff] at he
  exact he ▸ hc

/-- The brackets of such a dialect are nothing to remember. -/
def toBrackets (hd : d.Plain starts own) (hopen : '(' ∉ starts ++ own)
    (hclose : ')' ∉ starts ++ own) : d.Brackets where
  opens := id
  closes := id
  stands_opener _ cs := hd.stands (bare_cons (by decide) (by simp_all) cs)
  stands_closer _ cs := hd.stands (bare_cons (by decide) (by simp_all) cs)
  stands_ended _ := hd.stands (by simp [Lexeme.Bare])
  opener _ m cs := hd.token_cons (by simp_all)
    (Lexicon.yields_basicToken_bracket (Lexicon.bracketToken?_opener hd.round) m cs)
  closer _ m cs := hd.token_cons (by simp_all)
    (Lexicon.yields_basicToken_bracket (Lexicon.bracketToken?_closer hd.round) m cs)
  ended _ m := hd.token (by simp) (Lexicon.yields_basicToken_ended m)

/-- **Strings are leaves.** -/
theorem readsLeaf_string (hd : d.Plain starts own) {quote : Quote}
    (hquote : quote.char ∉ starts ++ own) (text : List Char) (room : Nat) (m : σ) :
    d.ReadsLeaf room m (Quoted.written quote text)
      (.atom (.string (String.ofList text) quote)) m := by
  rw [List.mem_append, not_or] at hquote
  have hblank : isBlank quote.char = false := by cases quote <;> decide
  refine ⟨⟨quote.char, _, rfl, hblank, by cases quote <;> decide⟩, fun rest _ => ?_,
    fun rest _ => ?_⟩
  · exact hd.stands (bare_cons hblank hquote.1 _)
  · exact hd.token_cons hquote.2 (Lexicon.yields_basicToken_string quote text m rest)

/-- **Literals are leaves**, for the value that the dialect gives to them. -/
theorem readsLeaf_literal (hd : d.Plain starts own) {c : Char} {cs : List Char}
    (htext : (c :: cs).all d.isAtomChar = true) (hquote : Quote.ofChar? c = none)
    (hc : c ∉ starts ++ own) {room : Nat} {m m' : σ} {v : Value}
    (hatom : ∀ p rest, Yields (d.atom (c :: cs) p) m rest v m' rest) :
    d.ReadsLeaf room m (c :: cs) v m' := by
  rw [List.mem_append, not_or] at hc
  obtain ⟨hblank, hbracket⟩ :=
    isAtomChar_eq_true_iff.mp (List.all_eq_true.mp htext c List.mem_cons_self)
  refine ⟨⟨c, cs, rfl, hblank, (hbracket .round hd.round_mem).2⟩, fun rest _ => ?_,
    fun rest hrest => ?_⟩
  · exact hd.stands (bare_cons hblank hc.1 _)
  · exact hd.token_cons hc.2
      (Lexicon.yields_basicToken_literal hd.round_mem htext hquote hrest (hatom · rest))

/-- Exact numbers are leaves. -/
theorem readsLeaf_number (hd : d.Plain starts own)
    (hown : ∀ c ∈ Numeral.exactChars, c ∉ starts ++ own) {n : Number} (hn : n.isExact = true)
    {room : Nat} {m : σ}
    (hatom : ∀ p rest, Yields (d.atom n.written p) m rest (.atom (.number n)) m rest) :
    d.ReadsLeaf room m n.written (.atom (.number n)) m := by
  have hchar : ∀ c ∈ Numeral.exactChars, isBlank c = false ∧ c ∉ ['(', ')', '[', ']'] :=
    List.all_iff_forall_prop.mp (by decide)
  have htext : n.written.all d.isAtomChar = true := by
    rw [List.all_eq_true]
    intro c hc
    have hmem := Numeral.mem_exactChars_of_mem_written hn hc
    exact isAtomChar_of_not_mem (hchar c hmem).1 (hchar c hmem).2
  cases hw : n.written with
  | nil => exact absurd hw (Numeral.written_ne_nil hn)
  | cons c cs =>
    rw [hw] at htext hatom
    -- Its first character is one of a numeral, so it begins no string and no comment.
    have hmem := Numeral.mem_exactChars_of_mem_written hn (hw ▸ List.mem_cons_self : c ∈ n.written)
    have hquote : ∀ c ∈ Numeral.exactChars, Quote.ofChar? c = none :=
      List.all_iff_forall_prop.mp (by decide)
    exact hd.readsLeaf_literal htext (hquote c hmem) (hown c hmem) hatom

end Plain

end Dialect

end SExpr
