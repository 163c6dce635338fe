import SExpr.Compact
import SExpr.Proofs.Yields

/-!
# What lexemes yield

Each lexeme in terms of the characters before the cursor. Blanks, comments and literals take what
they can and always succeed; what is written between quotes, bars and angle brackets is read back
as the text it was written for.
-/

namespace SExpr.Lexeme

open Cursor CursorM Text

/-! ## Blanks and comments -/

/-- Blanks are skipped up to the first character that is none. -/
theorem yields_skipBlanks (cs : List Char) : Yields skipBlanks cs () (cs.dropWhile isBlank) := by
  unfold skipBlanks
  induction cs with
  | nil => exact .loop_done ((yields_peek []).bind (.pure _ _))
  | cons d cs ih =>
    by_cases hd : isBlank d = true
    · rw [List.dropWhile_cons_of_pos hd]
      refine .loop_more ?_ (by simp) ih
      apply (yields_peek (d :: cs)).bind
      simp only [List.head?_cons, hd, if_true]
      exact (yields_take? (d :: cs)).bind (.pure _ _)
    · rw [List.dropWhile_cons_of_neg hd]
      refine .loop_done ((yields_peek (d :: cs)).bind ?_)
      simp only [List.head?_cons, if_neg hd]
      exact .pure _ _

/-- A line is skipped with its end. -/
theorem yields_skipLine (cs : List Char) :
    Yields skipLine cs () (cs.dropWhile (· != '\n')).tail := by
  unfold skipLine
  induction cs with
  | nil => exact .loop_done ((yields_take? []).bind (.pure _ _))
  | cons d cs ih =>
    by_cases hd : d = '\n'
    · subst hd
      exact .loop_done ((yields_take? ('\n' :: cs)).bind (.pure _ _))
    · rw [List.dropWhile_cons_of_pos (by simpa using hd)]
      refine .loop_more ?_ (by simp) ih
      apply (yields_take? (d :: cs)).bind
      simp only [List.head?_cons, if_neg hd]
      exact .pure _ _

/-- The text begins neither with a blank nor with a character that starts a comment. -/
def Bare (starts : List Char) (cs : List Char) : Prop :=
  ∀ c ∈ cs.head?, isBlank c = false ∧ starts.contains c = false

/-- What is left after blanks is bare unless a comment begins there. -/
theorem bare_of_dropWhile {starts cs : List Char}
    (h : ∀ c ∈ (cs.dropWhile isBlank).head?, starts.contains c = false) :
    Bare starts (cs.dropWhile isBlank) := by
  intro c hc
  refine ⟨?_, h c hc⟩
  have := List.head?_dropWhile_not isBlank cs
  rw [Option.mem_def.mp hc] at this
  simpa using this

/-- The last round of `skipComments`: nothing but blanks before the next token. -/
theorem yields_skipCommentsRound_done (starts cs : List Char)
    (h : ∀ c ∈ (cs.dropWhile isBlank).head?, starts.contains c = false) :
    Yields (skipCommentsRound starts ()) cs (.inr ()) (cs.dropWhile isBlank) := by
  refine (yields_skipBlanks cs).bind ((yields_peek _).bind ?_)
  cases hx : (cs.dropWhile isBlank).head? with
  | none => exact .pure _ _
  | some c =>
    simp only [h c hx, Bool.false_eq_true, if_false]
    exact .pure _ _

/-- Blanks before a bare text are dropped, and nothing else. -/
theorem dropWhile_gap {starts gap cs : List Char} (hgap : gap.all isBlank = true)
    (hcs : Bare starts cs) : (gap ++ cs).dropWhile isBlank = cs := by
  rw [List.dropWhile_append_of_pos (by simpa using hgap)]
  cases cs with
  | nil => rfl
  | cons d ds => exact List.dropWhile_cons_of_neg (by simp [(hcs d rfl).1])

/-- Blanks before a token are skipped, and nothing else. -/
theorem yields_skipComments_gap {starts gap cs : List Char} (hgap : gap.all isBlank = true)
    (hcs : Bare starts cs) : Yields (skipComments starts) (gap ++ cs) () cs := by
  have hdrop := dropWhile_gap hgap hcs
  have h := yields_skipCommentsRound_done starts (gap ++ cs) (by
    rw [hdrop]
    exact fun c hc => (hcs c hc).2)
  rw [hdrop] at h
  exact .loop_done h

/-- **Skipping comments always succeeds**, and what is left begins with a token. -/
theorem exists_yields_skipComments (starts : List Char) (cs : List Char) :
    ∃ rest, Yields (skipComments starts) cs () rest ∧ Bare starts rest ∧ rest <:+ cs := by
  -- A comment takes at least the character that starts it.
  induction hn : cs.length using Nat.strongRecOn generalizing cs with
  | ind n ih =>
    cases hx : (cs.dropWhile isBlank) with
    | nil =>
      have hbare : ∀ c ∈ (cs.dropWhile isBlank).head?, starts.contains c = false := by simp [hx]
      exact ⟨cs.dropWhile isBlank, .loop_done (yields_skipCommentsRound_done _ _ hbare),
        bare_of_dropWhile hbare, List.dropWhile_suffix _⟩
    | cons c ds =>
      by_cases hc : starts.contains c = true
      · have hsuffix : ((c :: ds).dropWhile (· != '\n')).tail <:+ cs :=
          (List.tail_suffix _).trans ((List.dropWhile_suffix _).trans
            (hx ▸ List.dropWhile_suffix _))
        have hround : Yields (skipCommentsRound starts ()) cs (.inl ())
            ((c :: ds).dropWhile (· != '\n')).tail := by
          refine (yields_skipBlanks cs).bind ((yields_peek _).bind ?_)
          rw [hx]
          simp only [List.head?_cons, hc, if_true]
          exact (yields_skipLine (c :: ds)).bind (.pure _ _)
        have hlt : ((c :: ds).dropWhile (· != '\n')).tail.length < cs.length := by
          have h₁ := (List.dropWhile_suffix (l := cs) isBlank).length_le
          have h₂ := (List.dropWhile_suffix (l := c :: ds) (· != '\n')).length_le
          rw [hx, List.length_cons] at h₁
          rw [List.length_cons] at h₂
          rw [List.length_tail]
          omega
        obtain ⟨rest, hy, hb, hs⟩ := ih _ (hn ▸ hlt) _ rfl
        exact ⟨rest, .loop_more hround hlt hy, hb, hs.trans hsuffix⟩
      · have hbare : ∀ c ∈ (cs.dropWhile isBlank).head?, starts.contains c = false := by
          simpa [hx] using hc
        exact ⟨cs.dropWhile isBlank, .loop_done (yields_skipCommentsRound_done _ _ hbare),
          bare_of_dropWhile hbare, List.dropWhile_suffix _⟩

/-! ## Literals -/

/-- The characters that fit are taken, after those taken already. -/
theorem yields_literal_after (p : Char → Bool) (cs taken : List Char) :
    Yields (Cursor.loop (literalRound p) taken) cs (taken.reverse ++ cs.takeWhile p)
      (cs.dropWhile p) := by
  induction cs generalizing taken with
  | nil =>
    rw [List.takeWhile_nil, List.append_nil]
    exact .loop_done ((yields_peek []).bind (.pure _ _))
  | cons d cs ih =>
    by_cases hd : p d = true
    · rw [List.takeWhile_cons_of_pos hd, List.dropWhile_cons_of_pos hd,
        List.append_cons, ← List.reverse_cons]
      refine .loop_more ?_ (by simp) (ih (d :: taken))
      apply (yields_peek (d :: cs)).bind
      simp only [List.head?_cons, hd, if_true]
      exact (yields_take? (d :: cs)).bind (.pure _ _)
    · rw [List.takeWhile_cons_of_neg hd, List.dropWhile_cons_of_neg hd, List.append_nil]
      refine .loop_done ((yields_peek (d :: cs)).bind ?_)
      simp only [List.head?_cons, if_neg hd]
      exact .pure _ _

theorem yields_literal (p : Char → Bool) (cs : List Char) :
    Yields (literal p) cs (cs.takeWhile p) (cs.dropWhile p) :=
  yields_literal_after p cs []

/-- A literal ends where no character of its class follows. -/
theorem yields_literal_append {p : Char → Bool} (text : List Char) {rest : List Char}
    (htext : text.all p = true) (hrest : ∀ c ∈ rest.head?, p c = false) :
    Yields (literal p) (text ++ rest) text rest := by
  have h := yields_literal p (text ++ rest)
  have htext : ∀ c ∈ text, p c = true := by simpa using htext
  rw [List.takeWhile_append_of_pos htext, List.dropWhile_append_of_pos htext] at h
  cases rest with
  | nil => simpa using h
  | cons d ds => simpa [hrest d rfl] using h

end SExpr.Lexeme

/-! ## Strings

There is more than one way to put a text between quotes: a character can stand as itself, after a
backslash or as its code. How a text is written is one of them, and reading understands them all. -/

namespace SExpr.Quoted

open Text

/-- The letters that stand for another character after a backslash. -/
def shortEscapes : List (Char × Char) :=
  [('b', '\x08'), ('f', '\x0c'), ('n', '\n'), ('r', '\r'), ('t', '\t')]

/-- What can stand after a backslash, and the character that is meant: a letter and the digits of
the character's code, or else a character that stands for itself or for another one. -/
inductive Escapes : List Char → Char → Prop
  | char {c : Char} (hc : c ∉ ['u', 'U']) : Escapes [c] ((shortEscapes.lookup c).getD c)
  | code {mark : Char} {digits : List Char} {c : Char}
      (hmark : (mark, digits.length) ∈ [('u', 4), ('U', 8)])
      (hcode : Numeral.naturalFrom? 16 0 digits = some c.toNat) : Escapes (mark :: digits) c

/-- What can stand between quotes, and the text that is meant. -/
inductive Spells (quote : Quote) : List Char → List Char → Prop
  | nil : Spells quote [] []
  | bare {c : Char} {cs text : List Char} (hback : c ≠ '\\') (hquote : c ≠ quote.char)
      (h : Spells quote cs text) : Spells quote (c :: cs) (c :: text)
  | escaped {es cs text : List Char} {c : Char} (hc : Escapes es c) (h : Spells quote cs text) :
      Spells quote ('\\' :: (es ++ cs)) (c :: text)

theorem digitValue?_hexDigit : ∀ d < 16, Numeral.digitValue? 16 (hexDigit d) = some d := by
  decide

/-- The four digits add up to the number again, as it has no more than four. -/
theorem naturalFrom?_fourHexDigits {n : Nat} (hn : n < 0x10000) :
    Numeral.naturalFrom? 16 0 (fourHexDigits n) = some n := by
  have hdigit (k : Nat) : Numeral.digitValue? 16 (hexDigit (k % 16)) = some (k % 16) :=
    digitValue?_hexDigit _ (Nat.mod_lt _ (by decide))
  simp only [fourHexDigits, List.map_cons, List.map_nil, Numeral.naturalFrom?, hdigit,
    Option.bind_some, Option.some.injEq]
  omega

theorem Spells.char {quote : Quote} {cs text : List Char} (h : Spells quote cs text) {c : Char}
    (hc : c ∉ ['u', 'U']) :
    Spells quote ('\\' :: c :: cs) ((shortEscapes.lookup c).getD c :: text) :=
  .escaped (.char hc) h

/-- What is written for a character spells it, before whatever the rest spells. -/
theorem spells_escape {quote : Quote} {cs text : List Char} (h : Spells quote cs text) (c : Char) :
    Spells quote (escape quote c ++ cs) (c :: text) := by
  unfold escape
  split_ifs with hback hnewline hreturn htab hbackspace hpage hquote hcontrol
  · subst hback
    exact h.char (by decide)
  · exact hnewline ▸ h.char (c := 'n') (by decide)
  · exact hreturn ▸ h.char (c := 'r') (by decide)
  · exact htab ▸ h.char (c := 't') (by decide)
  · exact hbackspace ▸ h.char (c := 'b') (by decide)
  · exact hpage ▸ h.char (c := 'f') (by decide)
  · subst hquote
    cases quote <;> exact h.char (by decide)
  · -- Control characters are below `0xA0`, so four digits are enough.
    have hlt : c.toNat < 0x10000 := by
      simp only [isControl, Bool.or_eq_true, Bool.and_eq_true, decide_eq_true_eq] at hcontrol
      omega
    have hcode : Escapes ('u' :: fourHexDigits c.toNat) c :=
      .code (by simp [fourHexDigits]) (naturalFrom?_fourHexDigits hlt)
    exact .escaped hcode h
  · exact .bare hback hquote h

/-- What is written for a text is one of its spellings. -/
theorem spells_written (quote : Quote) (cs : List Char) :
    Spells quote (cs.flatMap (escape quote)) cs := by
  induction cs with
  | nil => exact .nil
  | cons c cs ih => exact spells_escape ih c

end SExpr.Quoted

namespace SExpr.Lexeme

open Cursor CursorM Text

/-- Digits yield the number that they make up, after one begun already. -/
theorem yields_hexNumber {digits : List Char} {n m : Nat}
    (h : Numeral.naturalFrom? 16 n digits = some m) (rest : List Char) :
    Yields (hexNumber n digits.length) (digits ++ rest) m rest := by
  induction digits generalizing n with
  | nil =>
    cases h
    exact .pure _ _
  | cons c digits ih =>
    obtain ⟨d, hd, h⟩ := Option.bind_eq_some_iff.mp h
    refine yields_here fun p => (yields_take _ _ _).bind ?_
    simp only [hd]
    exact ih h

theorem charOfCode?_toNat (c : Char) : charOfCode? c.toNat = some c := by
  have hvalid : c.toNat.isValidChar := c.valid
  unfold charOfCode?
  rw [if_pos hvalid, Char.ofNat_toNat]

/-- The digits of a code yield its character. -/
theorem yields_hexChar {digits : List Char} {c : Char}
    (h : Numeral.naturalFrom? 16 0 digits = some c.toNat) (rest : List Char) :
    Yields (hexChar digits.length) (digits ++ rest) c rest := by
  refine yields_here fun p => (yields_hexNumber h rest).bind ?_
  simp only [charOfCode?_toNat]
  exact .pure _ _

theorem yields_escape {es : List Char} {c : Char} (h : Quoted.Escapes es c) (rest : List Char) :
    Yields escape (es ++ rest) c rest := by
  cases h with
  | @char c hc =>
    refine (yields_take _ c rest).bind ?_
    simp only [List.mem_cons, List.not_mem_nil, or_false, not_or] at hc
    simp only [if_neg hc.1, if_neg hc.2]
    -- Five letters are short for something else; any other character stands for itself.
    split_ifs with hb hf hn hr ht
    · exact hb ▸ .pure '\x08' rest
    · exact hf ▸ .pure '\x0c' rest
    · exact hn ▸ .pure '\n' rest
    · exact hr ▸ .pure '\r' rest
    · exact ht ▸ .pure '\t' rest
    · have hlookup : Quoted.shortEscapes.lookup c = none := by
        simp only [Quoted.shortEscapes, List.lookup_cons, List.lookup_nil, beq_false_of_ne hb,
          beq_false_of_ne hf, beq_false_of_ne hn, beq_false_of_ne hr, beq_false_of_ne ht]
      rw [hlookup]
      exact .pure c rest
  | @code mark digits c hmark hcode =>
    refine (yields_take _ mark _).bind ?_
    simp only [List.mem_cons, List.not_mem_nil, or_false, Prod.mk.injEq] at hmark
    obtain ⟨rfl, hlength⟩ | ⟨rfl, hlength⟩ := hmark
    · exact hlength ▸ yields_hexChar hcode rest
    · exact hlength ▸ yields_hexChar hcode rest

/-- What spells a text yields it, after the characters taken already, up to the quote. -/
theorem yields_string_after {quote : Quote} {cs text : List Char}
    (h : Quoted.Spells quote cs text) (start : Pos) (taken rest : List Char) :
    Yields (Cursor.loop (stringRound quote.char start) taken) (cs ++ quote.char :: rest)
      (taken.reverse ++ text) rest := by
  induction h generalizing taken with
  | nil =>
    rw [List.append_nil]
    refine .loop_done ((yields_take? (quote.char :: rest)).bind ?_)
    cases quote <;> exact .pure _ _
  | @bare c cs text hback hquote h ih =>
    rw [List.append_cons taken.reverse, ← List.reverse_cons]
    refine .loop_more ?_ (by simp) (ih (c :: taken))
    apply (yields_take? (c :: (cs ++ quote.char :: rest))).bind
    simp only [List.head?_cons, if_neg hback, if_neg hquote]
    exact .pure _ _
  | @escaped es cs text c hc h ih =>
    rw [List.append_cons taken.reverse, ← List.reverse_cons, List.cons_append, List.append_assoc]
    refine .loop_more ?_ ?_ (ih (c :: taken))
    · exact (yields_take? _).bind ((yields_escape hc _).bind (.pure _ _))
    · simp only [List.length_append, List.length_cons]
      omega

/-- **A text is read in any of its spellings.** -/
theorem yields_string_spelled {quote : Quote} {cs text : List Char}
    (h : Quoted.Spells quote cs text) (rest : List Char) :
    Yields string (quote.char :: (cs ++ quote.char :: rest)) (text, quote) rest := by
  refine yields_here fun start => ?_
  refine (yields_take _ _ _).bind ((yields_string_after h start [] rest).bind ?_)
  cases quote <;> exact .pure _ _

/-- **A string is read back as it was written.** -/
theorem yields_string (quote : Quote) (cs rest : List Char) :
    Yields string (Quoted.written quote cs ++ rest) (cs, quote) rest := by
  rw [Quoted.written, List.cons_append, List.cons_append, List.append_assoc]
  exact yields_string_spelled (Quoted.spells_written quote cs) rest

/-! ## Symbols between bars and IRIs -/

/-- A character is yielded for what is written for it between bars. -/
theorem yields_barredSymbolRound (start : Pos) (taken : List Char) (c : Char) (rest : List Char) :
    Yields (barredSymbolRound start taken) (Symbol.escape c ++ rest) (.inl (c :: taken)) rest := by
  unfold Symbol.escape
  split
  · apply (yields_take? ('\\' :: c :: rest)).bind
    exact (yields_take? (c :: rest)).bind (.pure _ _)
  · next h =>
    rw [not_or] at h
    apply (yields_take? (c :: rest)).bind
    simp only [List.head?_cons, if_neg h.1, if_neg h.2]
    exact .pure _ _

/-- A name is yielded for what is written for it between bars, after the characters taken already.
-/
theorem yields_barredSymbol_after (start : Pos) (cs taken rest : List Char) :
    Yields (Cursor.loop (barredSymbolRound start) taken) (cs.flatMap Symbol.escape ++ '|' :: rest)
      (taken.reverse ++ cs) rest := by
  induction cs generalizing taken with
  | nil =>
    refine .loop_done ((yields_take? ('|' :: rest)).bind ?_)
    simpa using Yields.pure _ _
  | cons c cs ih =>
    rw [List.flatMap_cons, List.append_assoc, List.append_cons taken.reverse,
      ← List.reverse_cons]
    refine .loop_more (yields_barredSymbolRound start taken c _) ?_ (ih (c :: taken))
    have : 0 < (Symbol.escape c).length := by
      unfold Symbol.escape
      split <;> simp
    simp only [List.length_append]
    omega

/-- **A symbol between bars is read back as it was written**, after its first bar. -/
theorem yields_barredSymbol (start : Pos) (cs rest : List Char) :
    Yields (barredSymbol start) (cs.flatMap Symbol.escape ++ '|' :: rest) cs rest :=
  yields_barredSymbol_after start cs [] rest

/-- The text of an IRI is taken up to the closing bracket. -/
theorem yields_bracketedIri_after (start : Pos) {raw : List Char} (hraw : '>' ∉ raw)
    (taken rest : List Char) :
    Yields (Cursor.loop (bracketedIriRound start) taken) (raw ++ '>' :: rest) (taken.reverse ++ raw)
      rest := by
  induction raw generalizing taken with
  | nil =>
    refine .loop_done ((yields_take? ('>' :: rest)).bind ?_)
    simpa using Yields.pure _ _
  | cons c cs ih =>
    rw [List.mem_cons, not_or] at hraw
    rw [List.append_cons taken.reverse, ← List.reverse_cons]
    refine .loop_more ?_ (by simp) (ih hraw.2 (c :: taken))
    apply (yields_take? (c :: (cs ++ '>' :: rest))).bind
    simp only [List.head?_cons, if_neg (Ne.symm hraw.1)]
    exact .pure _ _

/-- An IRI ends at the first closing angle bracket. -/
theorem yields_bracketedIri (start : Pos) {raw : List Char} (hraw : '>' ∉ raw)
    (rest : List Char) : Yields (bracketedIri start) (raw ++ '>' :: rest) raw rest :=
  yields_bracketedIri_after start hraw [] rest

end SExpr.Lexeme

/-! ## Named characters -/

namespace SExpr.Spelling

open Text

/-- Names of characters that can be told apart from each other and from a character alone, and
that are literals of the given class. -/
structure Regular (sp : Spelling) (isAtomChar : Char → Bool) : Prop where
  literal : ∀ e ∈ sp.charNames, e.1.toList.all isAtomChar = true ∧ e.1.toList ≠ []
  named : ∀ e ∈ sp.charNames, sp.charNamed? e.1.toList = some e.2
  long : ∀ e ∈ sp.charNames, e.1.toList.length ≠ 1

namespace Regular

variable {sp : Spelling} {isAtomChar : Char → Bool}

/-- A character by itself is no name of one. -/
theorem charNamed?_singleton (h : sp.Regular isAtomChar) (c : Char) : sp.charNamed? [c] = none := by
  unfold charNamed?
  rw [Option.map_eq_none_iff, List.find?_eq_none]
  intro e he hsame
  have hlength := congrArg List.length (eq_of_beq hsame)
  exact h.long e he (by simpa using hlength)

/-- A name that a character is written with is the name that it is read back by. -/
theorem of_nameOf? (h : sp.Regular isAtomChar) {c : Char} {name : String}
    (hname : sp.nameOf? c = some name) :
    name.toList.all isAtomChar = true ∧ name.toList ≠ [] ∧ sp.charNamed? name.toList = some c := by
  obtain ⟨e, hfind, rfl⟩ := Option.map_eq_some_iff.mp hname
  have hmem := List.mem_of_find?_eq_some hfind
  have hc : e.2 = c := by simpa using List.find?_some hfind
  exact ⟨(h.literal e hmem).1, (h.literal e hmem).2, hc ▸ h.named e hmem⟩

end Regular

end SExpr.Spelling

namespace SExpr.Lexeme

open Cursor CursorM

/-- **A character is read back as it was written**, by its name or as itself. -/
theorem yields_character {sp : Spelling} {isAtomChar : Char → Bool} (hsp : sp.Regular isAtomChar)
    (c : Char) {rest : List Char} (hrest : ∀ d ∈ rest.head?, isAtomChar d = false) :
    Yields (character isAtomChar sp) (((sp.nameOf? c).map String.toList).getD [c] ++ rest) c
      rest := by
  cases hname : sp.nameOf? c with
  | some name =>
    obtain ⟨hall, hne, hnamed⟩ := hsp.of_nameOf? hname
    apply (yields_literal_append _ hall hrest).bind
    cases htext : name.toList with
    | nil => exact absurd htext hne
    | cons d ds =>
      rw [htext] at hnamed
      simp only [hnamed]
      exact .pure _ _
  | none =>
    by_cases hc : isAtomChar c = true
    · -- A literal of one character is no name: it is the character, and nothing is put back.
      apply (yields_literal_append [c] (by simpa using hc) hrest).bind
      simp only [hsp.charNamed?_singleton]
      exact (yields_pushBack [] rest).bind (.pure _ _)
    · -- Not a literal at all: the character is taken whatever it is.
      have hstop : ∀ d ∈ (c :: rest).head?, isAtomChar d = false := by
        intro d hd
        rw [List.head?_cons, Option.mem_some_iff] at hd
        exact hd ▸ Bool.eq_false_iff.mpr hc
      exact (yields_literal_append [] rfl hstop).bind (yields_take _ _ _)

end SExpr.Lexeme
