import SExpr.Dialect.Sparql
import SExpr.Proofs.Token

/-!
# Tokens of SPARQL expressions

What each kind of token yields, as a function of its text and of what is remembered. Nothing is
assumed about what is remembered, so the same facts serve for any session.

* **`meaning`**: what a literal stands for.
* **`yields_tokenWith_literal`**, **`yields_tokenWith_angle`**: literals and IRIs in angle brackets.
* **`readsLeaf_quoted`**, **`readsLeaf_tagged`**, **`readsLeaf_typed`**: literals in quotes.
-/

namespace SExpr.Dialect.Sparql

open ReadM Text

/-- What the value of a literal stands for: the meaning of the symbol, if it is one. -/
def classify : Value → Remembering Value
  | .atom (.symbol name), m => symbol name.toList m
  | v, m => (v, m)

/-- What a literal stands for. -/
def meaning (text : List Char) : Remembering Value := fun m =>
  classify (atom text m).1 (atom text m).2

/-! ## Tokens and their datatypes -/

/-- The characters that are left allow for as many datatypes within each other as a token can have.
-/
theorem yields_token_of_tokenIn {m m' : Memory} {cs rest : List Char} {t : Token}
    (h : Yields (tokenIn cs) m cs t m' rest) : Yields token m cs t m' rest := by
  intro s hm hs
  rw [token_def, hs.unread]
  exact h s hm hs

/-- A token that has no datatype is read whatever datatypes are read as. -/
theorem yields_tokenIn {m m' : Memory} {cs rest : List Char} {t : Token}
    (h : ∀ datatype, Yields (tokenWith datatype) m cs t m' rest) (allowance : List Char) :
    Yields (tokenIn allowance) m cs t m' rest := by
  cases allowance <;> exact h _

/-- What does not depend on how a datatype is read is a token of the dialect. -/
theorem yields_token_of_tokenWith {m m' : Memory} {cs rest : List Char} {t : Token}
    (h : ∀ datatype, Yields (tokenWith datatype) m cs t m' rest) : Yields token m cs t m' rest :=
  yields_token_of_tokenIn (yields_tokenIn h cs)

/-- A character that begins neither a literal in quotes nor an IRI. -/
theorem yields_tokenWith_basic {datatype : ReadM Memory Iri} {m m' : Memory} {cs rest : List Char}
    {t : Token} (hcs : ∀ c ∈ cs.head?, c ∉ ['"', '\'', '<'])
    (h : Yields (do
      let token ← lexicon.basicToken
      onMemory fun m => ((), m.seen token)
      match token with
      | .value (.atom (.symbol name)) => return .value (← onMemory (symbol name.toList))
      | token => return token) m cs t m' rest) :
    Yields (tokenWith datatype) m cs t m' rest := by
  refine .here fun p => (Yields.onCursor (Cursor.yields_peek cs) m).bind ?_
  split
  · next heq => exact absurd (hcs _ heq) (by decide)
  · next heq => exact absurd (hcs _ heq) (by decide)
  · next heq => exact absurd (hcs _ heq) (by decide)
  · exact h

/-- A word is looked up once more if it has been taken for a symbol. -/
theorem yields_classify (v : Value) (m : Memory) (rest : List Char) :
    Yields (match Token.value v with
      | .value (.atom (.symbol name)) => return .value (← onMemory (symbol name.toList))
      | token => return token) m rest (.value (classify v m).1) (classify v m).2 rest := by
  cases v with
  | atom a =>
    cases a with
    | symbol name => exact (Yields.onMemory _ _ _).bind (.pure _ _ _)
    | nil => exact .pure _ _ _
    | bool b => exact .pure _ _ _
    | char c => exact .pure _ _ _
    | string text quote => exact .pure _ _ _
    | number n => exact .pure _ _ _
  | list items => exact .pure _ _ _
  | vector items => exact .pure _ _ _
  | term i t => exact .pure _ _ _

/-- A bracket or an end is noted in the memory. -/
theorem yields_tokenWith_plain {datatype : ReadM Memory Iri} {m : Memory} {cs rest : List Char}
    {t : Token} (hcs : ∀ c ∈ cs.head?, c ∉ ['"', '\'', '<']) (ht : ∀ v, t ≠ .value v)
    (h : Yields lexicon.basicToken m cs t m rest) :
    Yields (tokenWith datatype) m cs t (m.seen t) rest := by
  refine yields_tokenWith_basic hcs (h.bind ((Yields.onMemory _ m rest).bind ?_))
  cases t with
  | value v => exact absurd rfl (ht v)
  | ended => exact .pure _ _ _
  | opener b => exact .pure _ _ _
  | closer b => exact .pure _ _ _

/-- A token for a literal of the given text is one for what it stands for. -/
theorem yields_tokenWith_meaning {datatype : ReadM Memory Iri} {text cs rest : List Char}
    (hcs : ∀ c ∈ cs.head?, c ∉ ['"', '\'', '<']) {m : Memory}
    (h : Yields lexicon.basicToken m cs (.value (atom text m).1) (atom text m).2 rest) :
    Yields (tokenWith datatype) m cs (.value (meaning text m).1) (meaning text m).2 rest := by
  refine yields_tokenWith_basic hcs (h.bind ((Yields.onMemory _ _ _).bind ?_))
  exact yields_classify _ _ rest

/-- **A literal** is a token for what it stands for. -/
theorem yields_tokenWith_literal {datatype : ReadM Memory Iri} {c : Char} {cs : List Char}
    (htext : (c :: cs).all lexicon.isAtomChar = true) (hc : c ∉ ['"', '\'', '<']) (m : Memory)
    {rest : List Char} (hrest : Delimits rest) :
    Yields (tokenWith datatype) m (c :: cs ++ rest) (.value (meaning (c :: cs) m).1)
      (meaning (c :: cs) m).2 rest := by
  have hquote : Quote.ofChar? c = none := by
    simp only [List.mem_cons, List.not_mem_nil, or_false, not_or] at hc
    rw [Quote.ofChar?, if_neg hc.1, if_neg hc.2.1]
  refine yields_tokenWith_meaning (by simpa using hc) ?_
  exact Lexicon.yields_basicToken_literal (l := lexicon) (by decide) htext hquote hrest
    fun _ => Yields.onMemory (atom (c :: cs)) m rest

/-- What can stand between angle brackets: it is not closed too early, and the opening bracket is
not taken for an operator. -/
def IsRaw (raw : List Char) : Prop :=
  '>' ∉ raw ∧ ∀ c ∈ (raw ++ ['>']).head?, lexicon.isAtomChar c = true ∧ c ≠ '='

/-- What begins like a literal, but not with the equals sign, is the text of an IRI up to the
bracket. -/
theorem isRaw_cons {c : Char} {cs : List Char} (hc : lexicon.isAtomChar c = true) (heq : c ≠ '=')
    (hclose : '>' ∉ c :: cs) : IsRaw (c :: cs) :=
  ⟨hclose, by simpa using ⟨hc, heq⟩⟩

/-- **An IRI in angle brackets** is a token for what it is in full. -/
theorem yields_tokenWith_angle {datatype : ReadM Memory Iri} {raw : List Char} (hraw : IsRaw raw)
    (m : Memory) (rest : List Char) :
    Yields (tokenWith datatype) m ('<' :: (raw ++ '>' :: rest)) (.value (iri raw m).1)
      (iri raw m).2 rest := by
  refine .here fun p => (Yields.onCursor (Cursor.yields_peek _) m).bind ?_
  refine (Yields.onCursor (Cursor.yields_take? _) m).bind (.bind ?_ (.pure _ _ _))
  apply (Yields.onCursor (Cursor.yields_peek _) m).bind
  -- The character after the bracket decides: it makes the bracket an operator or begins an IRI.
  have hhead : ∃ c, (raw ++ '>' :: rest).head? = some c ∧ c ∈ (raw ++ ['>']).head? := by
    cases raw with
    | nil => exact ⟨'>', rfl, rfl⟩
    | cons c cs => exact ⟨c, rfl, rfl⟩
  obtain ⟨c, hc, hmem⟩ := hhead
  obtain ⟨hatom, heq⟩ := hraw.2 c hmem
  simp only [List.tail_cons, hc, hatom, Bool.not_true, Bool.false_eq_true, if_false, if_neg heq]
  exact (Yields.onCursor (Lexeme.yields_bracketedIri p hraw.1 rest) m).bind (Yields.onMemory _ _ _)

/-- A bracket before a delimiter is the symbol of that name. -/
theorem yields_tokenWith_less {datatype : ReadM Memory Iri} (m : Memory) {rest : List Char}
    (hrest : ∀ c ∈ rest.head?, lexicon.isAtomChar c = false) :
    Yields (tokenWith datatype) m ('<' :: rest) (.value (.symbol "<")) m rest := by
  refine .here fun p => (Yields.onCursor (Cursor.yields_peek _) m).bind ?_
  refine (Yields.onCursor (Cursor.yields_take? _) m).bind (.bind ?_ (.pure _ _ _))
  apply (Yields.onCursor (Cursor.yields_peek _) m).bind
  rw [List.tail_cons]
  cases hhead : rest.head? with
  | none => exact .pure _ _ _
  | some c =>
    simp only [hrest c hhead, Bool.not_false, if_true]
    exact .pure _ _ _

/-- A bracket before the equals sign is the symbol of both. -/
theorem yields_tokenWith_lessEqual {datatype : ReadM Memory Iri} (m : Memory) (rest : List Char) :
    Yields (tokenWith datatype) m ('<' :: '=' :: rest) (.value (.symbol "<=")) m rest := by
  refine .here fun p => (Yields.onCursor (Cursor.yields_peek _) m).bind ?_
  refine (Yields.onCursor (Cursor.yields_take? _) m).bind (.bind ?_ (.pure _ _ _))
  apply (Yields.onCursor (Cursor.yields_peek _) m).bind
  have hatom : lexicon.isAtomChar '=' = true := by decide
  simp only [List.tail_cons, List.head?_cons, hatom, Bool.not_true, Bool.false_eq_true, if_false,
    if_true]
  exact (Yields.onCursor (Cursor.yields_take? _) m).bind (.pure _ _ _)

/-! ## Literals in quotes -/

/-- A token that begins with a quote is a literal in quotes. -/
theorem yields_tokenWith_quoted {datatype : ReadM Memory Iri} {quote : Quote} {m m' : Memory}
    {cs rest : List Char} {v : Value}
    (h : Yields (quoted datatype) m (quote.char :: cs) v m' rest) :
    Yields (tokenWith datatype) m (quote.char :: cs) (.value v) m' rest := by
  refine .here fun p => (Yields.onCursor (Cursor.yields_peek _) m).bind ?_
  cases quote <;> exact h.bind (.pure _ _ _)

/-- A literal that nothing follows has neither tag nor datatype. -/
theorem yields_quoted_plain {datatype : ReadM Memory Iri} (quote : Quote) (text : List Char)
    (m : Memory) {rest : List Char} (hrest : Delimits rest) :
    Yields (quoted datatype) m (Quoted.written quote text ++ rest)
      (mention (.literal { value := String.ofList text, quote }) m).1
      (mention (.literal { value := String.ofList text, quote }) m).2 rest := by
  apply (Yields.onCursor (Lexeme.yields_string quote text rest) m).bind
  apply (Yields.onCursor (Cursor.yields_peek rest) m).bind
  split
  · next heq => exact absurd (hrest _ heq) (by decide)
  · next heq => exact absurd (hrest _ heq) (by decide)
  · exact Yields.onMemory _ _ _

/-- A tag is taken up to the next delimiter, and put in lower case. -/
theorem yields_quoted_tagged {datatype : ReadM Memory Iri} (quote : Quote) (text : List Char)
    {tag : List Char} (htag : tag.all lexicon.isAtomChar = true) (m : Memory) {rest : List Char}
    (hrest : Delimits rest) :
    let l : Literal :=
      { value := String.ofList text, quote, language := some (String.ofList (lowercase tag)) }
    Yields (quoted datatype) m (Quoted.written quote text ++ '@' :: (tag ++ rest))
      (mention (.literal l) m).1 (mention (.literal l) m).2 rest := by
  apply (Yields.onCursor (Lexeme.yields_string quote text _) m).bind
  apply (Yields.onCursor (Cursor.yields_peek _) m).bind
  apply (Yields.onCursor (Cursor.yields_take? _) m).bind
  have hstop := Lexicon.isAtomChar_of_delimits (l := lexicon) (by decide) hrest
  have hliteral := Lexeme.yields_literal_append tag htag hstop
  exact (Yields.onCursor hliteral m).bind (Yields.onMemory _ _ _)

/-- However the text is spelled between its quotes, the datatype comes after the two carets. -/
theorem yields_quoted_typed {datatype : ReadM Memory Iri} {quote : Quote}
    {lexeme text cs : List Char}
    (hlexeme : CursorM.Yields Lexeme.string (lexeme ++ '^' :: '^' :: cs) (text, quote)
      ('^' :: '^' :: cs))
    {m m' : Memory} {rest : List Char} {i : Iri} (h : Yields datatype m cs i m' rest) :
    let l : Literal := { value := String.ofList text, quote, datatype := some i }
    Yields (quoted datatype) m (lexeme ++ '^' :: '^' :: cs) (mention (.literal l) m').1
      (mention (.literal l) m').2 rest := by
  apply (Yields.onCursor hlexeme m).bind
  refine (Yields.onCursor (Cursor.yields_peek _) m).bind (.here fun p => ?_)
  apply (Yields.onCursor (Cursor.yields_take? _) m).bind
  apply (Yields.onCursor (Cursor.yields_take _ _ _) m).bind
  exact h.bind (Yields.onMemory _ _ _)

/-- The datatype that a value is taken for. -/
def datatypeOf? : Value → Option Iri
  | .term _ (.iri i) => some i
  | .atom (.symbol name) => some { text := name }
  | _ => none

/-- A datatype is a token that stands for an IRI, or for a symbol. -/
theorem yields_datatype {token : ReadM Memory Token} {m m' : Memory} {cs rest : List Char}
    {v : Value} {i : Iri} (h : Yields token m cs (.value v) m' rest) (hv : datatypeOf? v = some i) :
    Yields (datatype token) m cs i m' rest := by
  refine .here fun p => h.bind ?_
  unfold datatypeOf? at hv
  split at hv
  · cases hv
    exact .pure _ _ _
  · cases hv
    exact .pure _ _ _
  · cases hv

/-! ## Leaves -/

theorem stands {nested : Nested Memory} {cs : List Char} (h : Lexeme.Bare [';', '#'] cs) :
    sparql.Stands nested cs :=
  fun _ m hgap => .onCursor (Lexeme.yields_skipComments_gap hgap h) m

/-- A leaf is what is one token before every delimiter. -/
theorem readsLeaf_of_token {c : Char} {cs : List Char} (hblank : isBlank c = false)
    (hc : c ∉ [')', ';', '#']) {room : Nat} {m m' : Memory} {v : Value}
    (h : ∀ rest, Delimits rest → Yields token m (c :: (cs ++ rest)) (.value v) m' rest) :
    sparql.ReadsLeaf room m (c :: cs) v m' := by
  simp only [List.mem_cons, List.not_mem_nil, or_false, not_or] at hc
  refine ⟨⟨c, cs, rfl, hblank, hc.1⟩, fun rest _ => stands (bare_cons hblank ?_ _), h⟩
  simp [hc]

/-- **Literals are leaves.** -/
theorem readsLeaf_literal {c : Char} {cs : List Char}
    (htext : (c :: cs).all lexicon.isAtomChar = true) (hc : c ∉ ['"', '\'', '<', ';', '#'])
    (room : Nat) (m : Memory) :
    sparql.ReadsLeaf room m (c :: cs) (meaning (c :: cs) m).1 (meaning (c :: cs) m).2 := by
  obtain ⟨hblank, hbracket⟩ :=
    isAtomChar_eq_true_iff.mp (List.all_eq_true.mp htext c List.mem_cons_self)
  have hround : c ≠ ')' := (hbracket .round (by decide)).2
  simp only [List.mem_cons, List.not_mem_nil, or_false, not_or] at hc
  refine readsLeaf_of_token hblank (by simp [hround, hc]) fun rest hrest => ?_
  apply yields_token_of_tokenWith
  exact fun _ => yields_tokenWith_literal htext (by simp [hc]) m hrest

/-- A literal in quotes is read with as many datatypes as there are characters. -/
theorem yields_token_quoted {quote : Quote} {m m' : Memory} {cs rest : List Char} {v : Value}
    (h : ∀ allowance : List Char,
      Yields (quoted (datatype (tokenIn allowance))) m (quote.char :: cs) v m' rest) :
    Yields token m (quote.char :: cs) (.value v) m' rest :=
  yields_token_of_tokenIn (yields_tokenWith_quoted (h cs))

/-- A literal in quotes is a leaf, with whatever is written after the quotes. -/
theorem readsLeaf_of_quoted {quote : Quote} {text suffix : List Char} {room : Nat} {m m' : Memory}
    {v : Value}
    (h : ∀ allowance rest : List Char, Delimits rest →
      Yields (quoted (datatype (tokenIn allowance))) m
        (Quoted.written quote text ++ (suffix ++ rest)) v m' rest) :
    sparql.ReadsLeaf room m (Quoted.written quote text ++ suffix) v m' := by
  refine readsLeaf_of_token (by cases quote <;> decide) (by cases quote <;> decide)
    fun rest hrest => ?_
  have hquoted : Yields token m (Quoted.written quote text ++ (suffix ++ rest)) (.value v) m'
      rest := yields_token_quoted fun allowance => h allowance rest hrest
  rw [← List.append_assoc] at hquoted
  exact hquoted

/-- **Literals in quotes are leaves**, -/
theorem readsLeaf_quoted (quote : Quote) (text : List Char) (room : Nat) (m : Memory) :
    let l : Literal := { value := String.ofList text, quote }
    sparql.ReadsLeaf room m (Quoted.written quote text) (mention (.literal l) m).1
      (mention (.literal l) m).2 := by
  intro l
  have h : sparql.ReadsLeaf room m (Quoted.written quote text ++ []) (mention (.literal l) m).1
      (mention (.literal l) m).2 :=
    readsLeaf_of_quoted fun _ _ hrest => yields_quoted_plain quote text m hrest
  rwa [List.append_nil] at h

/-- also with a language, -/
theorem readsLeaf_tagged (quote : Quote) (text : List Char) {tag : List Char}
    (htag : tag.all lexicon.isAtomChar = true) (room : Nat) (m : Memory) :
    let l : Literal :=
      { value := String.ofList text, quote, language := some (String.ofList (lowercase tag)) }
    sparql.ReadsLeaf room m (Quoted.written quote text ++ '@' :: tag) (mention (.literal l) m).1
      (mention (.literal l) m).2 :=
  readsLeaf_of_quoted fun _ _ hrest => yields_quoted_tagged quote text htag m hrest

/-- or with a datatype, which is itself a token. -/
theorem readsLeaf_typed (quote : Quote) (text : List Char) {cs : List Char} {m m' : Memory}
    {v : Value} {i : Iri}
    (h : ∀ allowance rest : List Char, Delimits rest →
      Yields (tokenIn allowance) m (cs ++ rest) (.value v) m' rest)
    (hv : datatypeOf? v = some i) (room : Nat) :
    let l : Literal := { value := String.ofList text, quote, datatype := some i }
    sparql.ReadsLeaf room m (Quoted.written quote text ++ '^' :: '^' :: cs)
      (mention (.literal l) m').1 (mention (.literal l) m').2 :=
  readsLeaf_of_quoted fun allowance rest hrest =>
    yields_quoted_typed (Lexeme.yields_string quote text _)
      (yields_datatype (h allowance rest hrest) hv)

/-! ## Brackets -/

theorem yields_token_plain {m : Memory} {cs rest : List Char} {t : Token}
    (hcs : ∀ c ∈ cs.head?, c ∉ ['"', '\'', '<']) (ht : ∀ v, t ≠ .value v)
    (h : Yields lexicon.basicToken m cs t m rest) : Yields token m cs t (m.seen t) rest :=
  yields_token_of_tokenWith fun _ => yields_tokenWith_plain hcs ht h

/-- The brackets of SPARQL expressions, which are counted. -/
def brackets : sparql.Brackets where
  opens m := m.seen (.opener .round)
  closes m := m.seen (.closer .round)
  stands_opener _ cs := stands (bare_cons (by decide) (by decide) cs)
  stands_closer _ cs := stands (bare_cons (by decide) (by decide) cs)
  stands_ended _ := stands (by simp [Lexeme.Bare])
  opener _ m cs := yields_token_plain (by simp) (by simp)
    (Lexicon.yields_basicToken_bracket (Lexicon.bracketToken?_opener rfl) m cs)
  closer _ m cs := yields_token_plain (by simp) (by simp)
    (Lexicon.yields_basicToken_bracket (Lexicon.bracketToken?_closer rfl) m cs)
  ended _ m := yields_token_plain (by simp) (by simp) (Lexicon.yields_basicToken_ended m)

end SExpr.Dialect.Sparql
