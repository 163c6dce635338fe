import SExpr.Proofs.Progress.Lexeme
import SExpr.Proofs.Tracks.Structure

/-!
# Tokens take characters

What stands before a token is taken or left, and a token takes at least one character; these are the
rules that a dialect has to follow, `Dialect.Advances`, and all dialects do. A datatype of SPARQL is
a token within a token, but there is less of the text left for it each time.
-/

namespace SExpr

open HasCursor ReadM Leaves

variable {σ : Type}

/-! ## Tokens -/

/-- How many characters a token takes at least: one, if it is a token at all. -/
def Token.weight : Token → Nat
  | .ended => 0
  | _ => 1

theorem Token.weight_le_one (token : Token) : token.weight ≤ 1 := by
  cases token with
  | ended => exact Nat.zero_le _
  | _ => exact Nat.le_refl _

/-- What is nested may be read without putting back more than was taken. -/
structure Nested.Shortens (n : Nested σ) : Prop where
  datum : ∀ p, SExpr.Shortens (n.datum p)
  items : ∀ b p, SExpr.Shortens (n.items b p)

/-- What stands before a token is taken or left, and a token takes at least one character. -/
structure Dialect.Advances (d : Dialect σ) : Prop where
  trivia : ∀ n : Nested σ, n.Shortens → Shortens (d.trivia n)
  token : ∀ n : Nested σ, n.Shortens → Spends (d.token n) Token.weight

theorem shortens_plainAtom (text : List Char) (p : Pos) :
    Shortens (plainAtom text p : ReadM σ Value) := by
  intro cs
  unfold plainAtom
  cases Numeral.atom text with
  | error cause => exact .throw
  | ok a => exact .pure (Nat.le_refl _)

namespace Lexicon

variable {l : Lexicon σ}

theorem spends_character (l : Lexicon σ) : Spends l.character fun _ => 1 :=
  fun cs => (Lexeme.spends_character l.isAtomChar l.spelling cs).bind fun _ _ h => .pure h

theorem shortens_radixInteger (l : Lexicon σ) (radix : Nat) : Shortens (l.radixInteger radix) :=
  fun cs => (Lexeme.shortens_radixInteger l.isAtomChar radix cs).bind fun _ _ h => .pure h

/-- A token of the common kind takes a character, unless the text is over. -/
theorem spends_basicToken (hatom : ∀ text p, Shortens (l.atom text p)) :
    Spends l.basicToken Token.weight := by
  refine fun cs => .here fun p => .peek ?_
  cases cs with
  | nil => exact .pure (Nat.le_refl _)
  | cons d ds =>
    dsimp only [List.head?_cons]
    cases bracketToken? l.brackets d with
    | some token => exact .take? (.pure (Nat.add_le_add_left token.weight_le_one _))
    | none =>
      show Leaves (if (Quote.ofChar? d).isSome then _ else _) _ _
      split
      · exact (Lexeme.spends_string.onCursor (d :: ds)).bind fun _ _ h => .pure h
      · refine ((Lexeme.spends_literal l.isAtomChar).onCursor (d :: ds)).bind fun text rest h => ?_
        -- To find the value of a literal, nothing is put back.
        have hvalue (text rest : List Char) (hrest : rest.length + 1 ≤ ds.length + 1) :
            Leaves (do return .value (← l.atom text p) : ReadM σ Token) rest fun token rest =>
              rest.length + token.weight ≤ (d :: ds).length :=
          (hatom text p rest).bind fun v rest' h' =>
            .pure ((Nat.add_le_add_right h' 1).trans hrest)
        cases text with
        | nil =>
          refine ((Cursor.spends_take .value).onCursor rest).bind fun c rest' h' => ?_
          exact hvalue [c] rest' (h'.trans h)
        | cons c cs => exact hvalue (c :: cs) rest ((Nat.add_le_add_left (by simp) _).trans h)

end Lexicon

namespace Dialect

theorem basic_advances : basic.Advances where
  trivia _ _ := Lexeme.shortens_skipBlanks.onCursor
  token _ _ := Lexicon.spends_basicToken shortens_plainAtom

theorem extended_advances : extended.Advances where
  trivia _ _ := (Lexeme.shortens_skipComments [';']).onCursor
  token _ _ := Lexicon.spends_basicToken shortens_plainAtom

/-! ### Scheme -/

namespace Scheme

/-- A comment takes characters, and so does a datum that is left out. -/
theorem spends_triviaRound {n : Nested Unit} (hn : n.Shortens) (u : Unit) :
    Spends (triviaRound n u) goingOn := by
  intro cs
  refine ((Lexeme.shortens_skipComments [';']).onCursor cs).bind fun _ rest hrest => .peek ?_
  cases rest with
  | nil => exact .pure hrest
  | cons d ds =>
    show Leaves (if some d = some '#' then _ else _) _ _
    split
    · next hd =>
      cases hd
      refine .here fun p => .take? (.peek ?_)
      split
      · next hds =>
        -- A datum is taken out, and two characters before it.
        obtain ⟨es, rfl⟩ : ∃ es, ds = ';' :: es := ⟨_, List.eq_cons_of_mem_head? hds⟩
        refine .take? ((hn.datum p es).bind fun _ rest h => .pure ?_)
        exact (Nat.add_le_add_right (h.trans (Nat.le_succ _)) 1).trans hrest
      · refine ((Lexeme.shortens_skipLine).onCursor ds).bind fun _ rest h => .pure ?_
        exact (Nat.add_le_add_right h 1).trans hrest
      · -- The sharp sign is as good as not taken.
        exact .pushBack (.pure hrest)
    · exact .pure hrest

theorem shortens_trivia {n : Nested Unit} (hn : n.Shortens) : Shortens (trivia n) :=
  .loop (τ := Session Unit) (fun u => (spends_triviaRound hn u).shortens) ()

/-- After a number sign of Scheme nothing is put back that stood before. -/
theorem shortens_sharp (p : Pos) : Shortens (sharp p) := by
  refine fun cs => .peek ?_
  cases cs with
  | nil => exact .here fun _ => .throw
  | cons d ds =>
    -- A character, a number in some base, or a word such as that for truth.
    show Leaves (if d = '\\' then _ else _) _ _
    split
    · have hcharacter : Shortens (onCursor schemeLexicon.character : ReadM Unit Value) :=
        schemeLexicon.spends_character.shortens.onCursor
      exact .take? (hcharacter.after_cons d ds)
    · dsimp only [List.head?_cons]
      cases radix? d with
      | some radix =>
        have hradix : Shortens (onCursor (schemeLexicon.radixInteger radix) : ReadM Unit Value) :=
          (schemeLexicon.shortens_radixInteger radix).onCursor
        exact .take? (hradix.after_cons d ds)
      | none =>
        show Leaves (if Text.isLetter d then _ else _) _ _
        split
        · refine ((Lexeme.spends_literal _).shortens.onCursor (d :: ds)).bind fun text rest h => ?_
          cases word? text with
          | none => exact .throw
          | some v => exact .pure h
        · exact .throw

/-- A token of Scheme takes its number sign, or what the common ones take. -/
theorem spends_token : Spends token Token.weight := by
  refine fun cs => .peek ?_
  split
  · next hcs =>
    obtain ⟨ds, rfl⟩ : ∃ ds, cs = '#' :: ds := ⟨_, List.eq_cons_of_mem_head? hcs⟩
    refine .here fun p => .take? ((shortens_sharp p ds).bind fun v rest h => .pure ?_)
    exact Nat.succ_le_succ h
  · exact Lexicon.spends_basicToken shortens_plainAtom cs

end Scheme

theorem scheme_advances : scheme.Advances where
  trivia _ hn := Scheme.shortens_trivia hn
  token _ _ := Scheme.spends_token

/-! ### Common Lisp -/

namespace CommonLisp

variable {options : Options} {n : Nested Unit}

theorem shortens_atom (text : List Char) (p : Pos) : Shortens (atom options text p) := by
  intro cs
  unfold atom
  split
  · exact .pure (Nat.le_refl _)
  · split
    · exact .pure (Nat.le_refl _)
    · exact shortens_plainAtom text p cs

theorem shortens_marked (hn : n.Shortens) (head : String) (p : Pos) :
    Shortens (marked n head p) :=
  fun cs => (hn.datum p cs).bind fun _ _ h => .pure h

/-- After a number sign of Common Lisp a character is taken, and then what it calls for. -/
theorem shortens_sharp (hn : n.Shortens) (p : Pos) : Shortens (sharp options n p) := by
  refine fun cs => .take fun d ds hcs => ?_
  subst hcs
  have hradix (radix : Nat) :
      Shortens (onCursor ((lexicon options).radixInteger radix) : ReadM Unit Value) :=
    (Lexicon.shortens_radixInteger _ radix).onCursor
  have hcharacter : Shortens (onCursor (lexicon options).character : ReadM Unit Value) :=
    (lexicon options).spends_character.shortens.onCursor
  split
  · exact (hradix 2).after_cons d ds
  · split
    · exact (hradix 8).after_cons d ds
    · split
      · exact (hradix 16).after_cons d ds
      · split
        · exact hcharacter.after_cons d ds
        · split
          · exact ((hn.items .round p).after_cons d ds).bind fun _ _ h => .pure h
          · split
            · exact (shortens_marked hn options.function p).after_cons d ds
            · exact .throw

/-- A token of Common Lisp takes its mark, or what the common ones take. -/
theorem spends_token (hn : n.Shortens) : Spends (token options n) Token.weight := by
  refine fun cs => .here fun p => .peek ?_
  cases cs with
  | nil => exact Lexicon.spends_basicToken shortens_atom []
  | cons d ds =>
    -- After a mark something is read that does not put the mark back.
    have hmark {α : Type} {x : ReadM Unit α} (hx : Shortens x) (f : α → Value) :
        Leaves (onCursor Cursor.take? >>= fun _ => x >>= fun a => pure (Token.value (f a)))
          (d :: ds) fun token rest => rest.length + token.weight ≤ (d :: ds).length :=
      .take? ((hx ds).bind fun _ _ h => .pure (Nat.succ_le_succ h))
    dsimp only [List.head?_cons]
    split
    · exact hmark (shortens_sharp hn p) id
    · exact hmark (Lexeme.shortens_barredSymbol p).onCursor fun text => .symbol (String.ofList text)
    · exact hmark (shortens_marked hn options.quote p) id
    · exact Lexicon.spends_basicToken shortens_atom (d :: ds)

end CommonLisp

theorem commonLisp_advances (options : CommonLisp.Options) : (commonLisp options).Advances where
  trivia _ _ := (Lexeme.shortens_skipComments [';']).onCursor
  token _ hn := CommonLisp.spends_token hn

/-! ### SPARQL -/

namespace Sparql

theorem shortens_atom (text : List Char) (p : Pos) : Shortens (lexicon.atom text p) := by
  intro cs
  show Leaves (onMemory (atom text)) cs _
  exact .onMemory fun _ => Nat.le_refl _

/-- What follows an angle bracket is left, or taken with the IRI. -/
theorem shortens_angle (p : Pos) : Shortens (angle p) := by
  refine fun cs => .peek ?_
  cases cs with
  | nil => exact .pure (Nat.le_refl _)
  | cons d ds =>
    show Leaves (if !lexicon.isAtomChar d then _ else _) _ _
    split
    · exact .pure (Nat.le_refl _)
    · split
      · exact .take? (.pure (Nat.le_succ _))
      · exact ((Lexeme.shortens_bracketedIri p).onCursor (d :: ds)).bind fun _ _ h =>
          .onMemory fun _ => h

/-- A datatype takes what its token takes. -/
theorem shortens_datatype {token : ReadM Memory Token} (htoken : Shortens token) :
    Shortens (datatype token) := by
  refine fun cs => .here fun p => (htoken cs).bind fun t rest h => ?_
  cases t with
  | value v =>
    dsimp only
    split
    · exact .pure h
    · exact .pure h
    · exact .throw
  | _ => exact .throw

/-- A string takes its quotes, and then a tag or a datatype. -/
theorem spends_quoted {datatype : ReadM Memory Iri} (hdatatype : Shortens datatype) :
    Spends (quoted datatype) fun _ => 1 := by
  refine fun cs => (Lexeme.spends_string.onCursor cs).bind fun text rest h => .peek ?_
  have hmention (t : Term) (rest : List Char) (h : rest.length + 1 ≤ cs.length) :
      Leaves (onMemory (mention t)) rest fun _ rest' => rest'.length + 1 ≤ cs.length :=
    .onMemory fun _ => h
  cases rest with
  | nil => exact hmention _ _ h
  | cons d ds =>
    dsimp only [List.head?_cons]
    split
    · refine .take? (((Lexeme.spends_literal _).shortens.onCursor ds).bind fun _ rest hrest => ?_)
      exact hmention _ _ ((Nat.succ_le_succ (hrest.trans (Nat.le_succ _))).trans h)
    · refine .here fun p => .take? (.take fun e es hes => ?_)
      obtain rfl : ds = e :: es := hes
      split
      · refine (hdatatype es).bind fun _ rest hrest => hmention _ _ ?_
        exact (Nat.succ_le_succ (hrest.trans (Nat.le_add_right _ 2))).trans h
      · exact .throw
    · exact hmention _ _ h

/-- A token takes characters if the datatypes in it put none back. -/
theorem spends_tokenWith {datatype : ReadM Memory Iri} (hdatatype : Shortens datatype) :
    Spends (tokenWith datatype) Token.weight := by
  refine fun cs => .here fun p => .peek ?_
  have hquoted : Leaves (do return .value (← quoted datatype) : ReadM Memory Token) cs
      fun token rest => rest.length + token.weight ≤ cs.length :=
    (spends_quoted hdatatype cs).bind fun _ _ h => .pure h
  split
  · exact hquoted
  · exact hquoted
  · next hcs =>
    obtain ⟨ds, rfl⟩ : ∃ ds, cs = '<' :: ds := ⟨_, List.eq_cons_of_mem_head? hcs⟩
    exact .take? ((shortens_angle p ds).bind fun _ _ h => .pure (Nat.succ_le_succ h))
  · refine (Lexicon.spends_basicToken shortens_atom cs).bind fun token rest h => ?_
    refine .onMemory_bind fun _ => ?_
    split
    · exact .onMemory_bind fun _ => .pure h
    · exact .pure h

/-- A token takes characters, however many datatypes are inside each other. -/
theorem spends_tokenIn {γ : Type} (allowance : List γ) : Spends (tokenIn allowance) Token.weight := by
  induction allowance with
  | nil =>
    -- With no allowance left, a datatype is missing, which takes nothing.
    exact spends_tokenWith (shortens_datatype fun cs => .pure (Nat.le_refl _))
  | cons _ allowance ih => exact spends_tokenWith (shortens_datatype ih.shortens)

theorem spends_token : Spends token Token.weight :=
  fun cs s hs => spends_tokenIn s.cursor.located cs s hs

/-! A datatype is read after its literal, when there is less of the text. So it comes to an end that
a datatype can itself be a literal with a datatype. -/

/-- The datatype of a string comes when there is less of the text. -/
theorem quoted_agree {datatype datatype' : ReadM Memory Iri} {cs : List Char}
    (h : ∀ rest : List Char, rest.length < cs.length → Agree rest datatype datatype') :
    Agree cs (quoted datatype) (quoted datatype') := by
  refine .bind (Lexeme.spends_string.onCursor cs) fun text rest hrest => .bind .ofPeek ?_
  rintro _ rest ⟨rfl, rfl⟩
  split
  · exact .refl _
  · refine .bind .ofHere fun p mid hmid => .bind .ofTake? fun r mid' hmid' => ?_
    refine .bind (.ofTake .datatype) fun c mid'' hmid'' => ?_
    split
    · have hrest : rest.length + 1 ≤ cs.length := hrest
      have htail : mid'.length ≤ rest.length := by
        rw [hmid'.2, hmid, List.length_tail]
        exact Nat.sub_le ..
      rw [hmid'', List.length_cons] at htail
      exact .bind_right (h mid'' (by omega))
    · exact .refl _
  · exact .refl _

/-- A token is the same if the datatypes in shorter texts are. -/
theorem tokenWith_agree {datatype datatype' : ReadM Memory Iri} {cs : List Char}
    (h : ∀ rest : List Char, rest.length < cs.length → Agree rest datatype datatype') :
    Agree cs (tokenWith datatype) (tokenWith datatype') := by
  have hquoted : Agree cs (do return .value (← quoted datatype) : ReadM Memory Token)
      (do return .value (← quoted datatype')) := .bind_right (quoted_agree h)
  refine .bind .ofHere ?_
  rintro p _ rfl
  refine .bind .ofPeek ?_
  rintro _ _ ⟨rfl, rfl⟩
  split
  · exact hquoted
  · exact hquoted
  · exact .refl _
  · exact .refl _

/-- A datatype is the same if its token is. -/
theorem datatype_agree {token token' : ReadM Memory Token} {cs : List Char}
    (h : Agree cs token token') : Agree cs (datatype token) (datatype token') := by
  refine .bind .ofHere ?_
  rintro p _ rfl
  exact .bind_right h

/-- Any two allowances agree that cover the text. -/
theorem tokenIn_agree {xs ys cs : List Char} (hxs : cs.length ≤ xs.length)
    (hys : cs.length ≤ ys.length) : Agree cs (tokenIn xs) (tokenIn ys) := by
  induction xs generalizing ys cs with
  | nil =>
    obtain rfl : cs = [] := List.eq_nil_of_length_eq_zero (Nat.le_zero.mp hxs)
    cases ys <;> exact tokenWith_agree fun _ h => absurd h (Nat.not_lt_zero _)
  | cons x xs ih =>
    cases ys with
    | nil =>
      obtain rfl : cs = [] := List.eq_nil_of_length_eq_zero (Nat.le_zero.mp hys)
      exact tokenWith_agree fun _ h => absurd h (Nat.not_lt_zero _)
    | cons y ys =>
      exact tokenWith_agree fun rest hrest => datatype_agree (ih
        (Nat.le_of_lt_succ (hrest.trans_le hxs)) (Nat.le_of_lt_succ (hrest.trans_le hys)))

/-- An allowance of as many characters as the text has is enough. -/
theorem token_agree {ys cs : List Char} (h : cs.length ≤ ys.length) :
    Agree cs (tokenIn ys) token := by
  intro s hs
  obtain rfl : s.cursor.unread = cs := hs
  rw [token_def]
  exact tokenIn_agree h (Nat.le_refl _) s rfl

/-- **Without an allowance**, too, a token comes to its end: its datatype is again just a token. -/
theorem token_eq (s : Session Memory) : token s = tokenWith (datatype token) s := by
  -- A larger allowance is used up by one, and what is left covers what comes after the literal.
  calc token s = tokenIn (' ' :: s.cursor.unread) s := (token_agree (Nat.le_succ _) s rfl).symm
    _ = tokenWith (datatype token) s :=
      tokenWith_agree (fun rest hrest => datatype_agree (token_agree hrest.le)) s rfl

end Sparql

theorem sparql_advances : sparql.Advances where
  trivia _ _ := (Lexeme.shortens_skipComments [';', '#']).onCursor
  token _ _ := Sparql.spends_token

/-- All dialects there are take characters with each token. -/
theorem Known.advances {d : Dialect σ} : d.Known → d.Advances
  | .basic => basic_advances
  | .extended => extended_advances
  | .scheme => scheme_advances
  | .commonLisp options => commonLisp_advances options
  | .sparql => sparql_advances

end Dialect

end SExpr
