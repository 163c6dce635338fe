import SExpr.Proofs.Blame
import SExpr.Proofs.Tracks.Structure

/-!
# Errors point at their cause

Tokens, values, lists and documents fail only with failures that are explained by the text. Two
things make this hold across the depth of a list: the place of its opening bracket is handed on to
the reading of its items, and an item hands on the place where its token was read.

* **`Nested.Explains`**, **`Dialect.Explains`**: what is asked of what is nested, and of a dialect.
* **`Known.explains`**: all dialects there are meet it.
* **`readAll_error_marks`**: a failure of `readAll` has one offset in the text, and its cause stands
  there.
-/

namespace SExpr

open ReadM

/-! ## Rules for dialects -/

/-- What is nested is blamed on the places that it is given: those of the mark and of the opening
bracket. -/
structure Nested.Explains {σ : Type} (q : Char → Bool) (text : List Char) (n : Nested σ) :
    Prop where
  datum : ∀ start cs, Failure.Explained text ⟨.tooDeep, start⟩ →
    Blames q text cs (n.datum start) Anything
  items : ∀ b start cs, Failure.Explained text ⟨.endOfInput (.close b), start⟩ →
    Blames q text cs (n.items b start) Anything

/-- An atom that is no number, although it looks like one, is reported where it begins. -/
def Lexicon.Explains {σ : Type} (l : Lexicon σ) : Prop :=
  ∀ text literal start cs,
    Failure.Explained text ⟨.malformedNumber 10 (String.ofList literal), start⟩ →
    Blames l.isAtomChar text cs (l.atom literal start) Anything

/-- What comes before a token, and the token, fail for causes that stand where they are reported. -/
structure Dialect.Explains {σ : Type} (d : Dialect σ) : Prop where
  trivia : ∀ {text n}, Nested.Tracked d.isAtomChar {} n n → n.Explains d.isAtomChar text →
    ∀ cs, Blames d.isAtomChar text cs (d.trivia n) Anything
  token : ∀ {text n}, Nested.Tracked d.isAtomChar {} n n → n.Explains d.isAtomChar text →
    ∀ cs, Blames d.isAtomChar text cs (d.token n) Anything

/-! ## Tokens that all dialects have -/

namespace Token.Taken

variable {brackets : List Bracket} {cs rest : List Char} {b : Bracket}

/-- An opening bracket that has been taken was the first character. -/
theorem head?_of_opener (h : Taken brackets cs (.opener b) rest) : cs.head? = some b.opening := by
  cases h with
  | bracket hd =>
    obtain ⟨b', -, ⟨rfl, htoken⟩ | ⟨-, htoken⟩⟩ := bracketToken?_cases hd
    · rw [Token.opener.inj htoken]
      rfl
    · cases htoken

/-- So was a closing bracket. -/
theorem head?_of_closer (h : Taken brackets cs (.closer b) rest) : cs.head? = some b.closing := by
  cases h with
  | bracket hd =>
    obtain ⟨b', -, ⟨-, htoken⟩ | ⟨rfl, htoken⟩⟩ := bracketToken?_cases hd
    · cases htoken
    · rw [Token.closer.inj htoken]
      rfl

end Token.Taken

/-- The only failure of an atom names all of it. -/
theorem Numeral.eq_of_atom_eq_error {cs : List Char} {cause : Cause}
    (h : Numeral.atom cs = .error cause) : cause = .malformedNumber 10 (String.ofList cs) := by
  have hnumber {cause : Cause} (h : Numeral.number? cs = .error cause) :
      cause = .malformedNumber 10 (String.ofList cs) := by
    unfold Numeral.number? at h
    repeat' split at h
    all_goals cases h
    rfl
  unfold Numeral.atom at h
  split at h
  · cases h
  · cases hres : Numeral.number? cs with
    | ok n =>
      rw [hres] at h
      cases h
    | error cause' =>
      rw [hres] at h
      cases h
      exact hnumber hres

/-- A number that is malformed is reported where its literal begins. -/
theorem blames_plainAtom {σ : Type} {q : Char → Bool} {text literal cs : List Char} {start : Pos}
    (h : Failure.Explained text ⟨.malformedNumber 10 (String.ofList literal), start⟩) :
    Blames q text cs (plainAtom literal start : ReadM σ Value) Anything := by
  unfold plainAtom
  split
  · exact .pure trivial
  · next cause hcause =>
    rw [← Numeral.eq_of_atom_eq_error hcause] at h
    exact .fail h

namespace Lexicon

variable {σ : Type} {l : Lexicon σ} {text cs : List Char}

/-- The characters of a lexicon are read with its spelling. -/
theorem blames_character :
    Blames l.isAtomChar text cs (l.character : ReadM σ Value) Anything := by
  have hcharacter : Blames l.isAtomChar text cs (Lexeme.character l.isAtomChar l.spelling)
      Anything := Lexeme.blames_character isAtomChar_newline l.spelling
  exact .onCursor (hcharacter.bind fun _ _ _ => .pure trivial)

theorem blames_radixInteger (radix : Nat) :
    Blames l.isAtomChar text cs (l.radixInteger radix : ReadM σ Value) Anything :=
  .onCursor ((Lexeme.blames_radixInteger radix).bind fun _ _ _ => .pure trivial)

/-- A literal is read where its atom is reported. -/
theorem blames_literalToken (hatom : l.Explains) {p : Pos} (hp : p.IsPlaceOf text cs) :
    Blames l.isAtomChar text cs
      (do match ← l.literal with
          | [] => return Token.value (← l.atom [← Cursor.take .value] p)
          | text => return Token.value (← l.atom text p) : ReadM σ Token) Anything := by
  have hexplained {literal : List Char} (h : literal <+: cs) :
      Failure.Explained text ⟨.malformedNumber 10 (String.ofList literal), p⟩ := by
    refine ⟨cs, hp, ?_⟩
    show (String.ofList literal).toList <+: cs
    rw [String.toList_ofList]
    exact h
  refine (Blames.onCursor Lexeme.blames_literal).bind fun literal rest h => ?_
  have hcs : literal ++ rest = cs := by rw [h.1, h.2, List.takeWhile_append_dropWhile]
  cases literal with
  | nil =>
    refine .take rfl fun c ds hrest => ?_
    have hsingle : [c] <+: cs := ⟨ds, by rw [← hcs, hrest]; rfl⟩
    exact (hatom text [c] p ds (hexplained hsingle)).bind fun _ _ _ => .pure trivial
  | cons c literal =>
    have hprefix : c :: literal <+: cs := ⟨rest, hcs⟩
    exact (hatom text (c :: literal) p rest (hexplained hprefix)).bind fun _ _ _ => .pure trivial

/-- A token of the common kind, if the literals of the lexicon are explained. -/
theorem blames_basicToken (hatom : l.Explains) :
    Blames l.isAtomChar text cs l.basicToken Anything := by
  refine .here fun p hp => .peek ?_
  cases cs with
  | nil => exact .pure trivial
  | cons d ds =>
    simp only [List.head?_cons]
    cases bracketToken? l.brackets d with
    | some token => exact .take? (.pure trivial)
    | none =>
      dsimp only
      split
      · exact (Blames.onCursor Lexeme.blames_string).bind fun _ _ _ => .pure trivial
      · exact blames_literalToken hatom hp

end Lexicon

namespace Dialect

variable {σ : Type} {text cs : List Char}

theorem basic_explains : basic.Explains where
  trivia _ _ _ := .onCursor Lexeme.blames_skipBlanks
  token _ _ _ := Lexicon.blames_basicToken fun _ _ _ _ => blames_plainAtom

theorem extended_explains : extended.Explains where
  trivia _ _ _ := .onCursor (Lexeme.blames_skipComments _)
  token _ _ _ := Lexicon.blames_basicToken fun _ _ _ _ => blames_plainAtom

/-! ## Scheme -/

namespace Scheme

/-- A number sign that opens no comment is put back. -/
theorem blames_sharpRound {n : Nested Unit} (hn : n.Explains schemeLexicon.isAtomChar text)
    (ds : List Char) :
    Blames schemeLexicon.isAtomChar text ('#' :: ds) (sharpRound n) Anything := by
  refine .here fun p hp => .intro fun hsuffix => .take? (.peek ?_)
  have hmark : Failure.Explained text ⟨.tooDeep, p⟩ := ⟨'#' :: ds, hp, .inr (.inr rfl)⟩
  simp only [List.tail_cons]
  split
  · exact .take? ((hn.datum p _ hmark).bind fun _ _ _ => .pure trivial)
  · exact (Blames.onCursor Lexeme.blames_skipLine).bind fun _ _ _ => .pure trivial
  · refine Blames.pushBack (τ := Session Unit) (fun d hd => ?_) hsuffix (.pure trivial)
    rw [List.mem_singleton.mp hd]
    exact ⟨isAtomChar_sharp, by decide⟩

/-- A datum that is left out hands on the place of its mark. -/
theorem blames_trivia {n : Nested Unit} (htracked : Nested.Tracked schemeLexicon.isAtomChar {} n n)
    (hn : n.Explains schemeLexicon.isAtomChar text) (cs : List Char) :
    Blames schemeLexicon.isAtomChar text cs (trivia n) Anything := by
  refine Blames.loop (τ := Session Unit) (fun u cs => ?_) ()
  have hround : Blames schemeLexicon.isAtomChar text cs (triviaRound n u) Anything := by
    rw [triviaRound_eq]
    refine (Blames.onCursor (Lexeme.blames_skipComments _)).bind fun _ rest _ => .peek ?_
    split
    · next hhead =>
      rw [List.eq_cons_of_mem_head? hhead]
      exact blames_sharpRound hn _
    · exact .pure trivial
  exact (hround.and_tracks (tracks_triviaRound htracked u · cs)).mono fun _ _ h => h.2.1.2

/-- No syntax begins with the sharp sign at `p` and the character after it. -/
theorem blames_sharp {p : Pos} (hp : p.IsPlaceOf text ('#' :: cs)) :
    Blames schemeLexicon.isAtomChar text cs (sharp p) Anything := by
  refine .peek ?_
  cases cs with
  | nil => exact .here fun p' hp' => .fail ⟨[], hp', rfl⟩
  | cons c ds =>
    have hunknown : Failure.Explained text ⟨.unknownSharp c, p⟩ :=
      ⟨'#' :: c :: ds, hp, ds, rfl⟩
    show Blames schemeLexicon.isAtomChar text (c :: ds) (if c = '\\' then _ else _) Anything
    split
    · exact .take? Lexicon.blames_character
    · split
      · exact .take? (Lexicon.blames_radixInteger _)
      · split
        · refine (Blames.onCursor Lexeme.blames_literal).bind fun literal _ _ => ?_
          split
          · exact .pure trivial
          · exact .fail hunknown
        · exact .fail hunknown

/-- A token of Scheme: the number sign hands on its place. -/
theorem blames_token : Blames schemeLexicon.isAtomChar text cs token Anything := by
  refine .peek ?_
  split
  · next hhead =>
    obtain ⟨ds, rfl⟩ := List.head?_eq_some_iff.mp hhead
    refine .here fun p hp => .take? ?_
    exact (blames_sharp hp).bind fun _ _ _ => .pure trivial
  · exact Lexicon.blames_basicToken fun _ _ _ _ => blames_plainAtom

end Scheme

theorem scheme_explains : scheme.Explains where
  trivia := Scheme.blames_trivia
  token _ _ _ := Scheme.blames_token

/-! ## Common Lisp -/

namespace CommonLisp

variable {options : Options} {n : Nested Unit}

/-- The numbers and symbols of Common Lisp fail where they begin. -/
theorem lexicon_explains : (lexicon options).Explains := by
  intro text literal start cs h
  show Blames _ text cs (atom options literal start) Anything
  unfold atom
  split
  · exact .pure trivial
  · split
    · exact .pure trivial
    · exact blames_plainAtom h

theorem blames_marked {q : Char → Bool} (hn : n.Explains q text) (head : String) {p : Pos}
    (hp : Failure.Explained text ⟨.tooDeep, p⟩) :
    Blames q text cs (marked n head p) Anything :=
  (hn.datum p cs hp).bind fun _ _ _ => .pure trivial

/-- What follows a sharp sign at `p`. The items of a vector are blamed on the sharp sign. -/
theorem blames_sharp (hn : n.Explains (lexicon options).isAtomChar text) {p : Pos}
    (hp : p.IsPlaceOf text ('#' :: cs)) :
    Blames (lexicon options).isAtomChar text cs (sharp options n p) Anything := by
  have hmark : Failure.Explained text ⟨.tooDeep, p⟩ := ⟨'#' :: cs, hp, .inr (.inr rfl)⟩
  refine .take rfl fun c ds hcs => ?_
  subst hcs
  split
  · exact Lexicon.blames_radixInteger 2
  · split
    · exact Lexicon.blames_radixInteger 8
    · split
      · exact Lexicon.blames_radixInteger 16
      · split
        · exact Lexicon.blames_character
        · split
          · next hc =>
            -- A vector has the place of its sharp sign, not that of its bracket.
            have hopen : Failure.Explained text ⟨.endOfInput (.close .round), p⟩ := by
              rw [hc] at hp
              exact ⟨'#' :: '(' :: ds, hp, .inr ⟨ds, rfl⟩⟩
            exact (hn.items .round p ds hopen).bind fun _ _ _ => .pure trivial
          · split
            · exact blames_marked hn options.function hmark
            · exact .fail ⟨'#' :: c :: ds, hp, ds, rfl⟩

/-- A token of Common Lisp: a mark and an opening bar hand on their place. -/
theorem blames_token (hn : n.Explains (lexicon options).isAtomChar text) (cs : List Char) :
    Blames (lexicon options).isAtomChar text cs (token options n) Anything := by
  refine .here fun p hp => .peek ?_
  split
  · next hhead =>
    obtain ⟨ds, rfl⟩ := List.head?_eq_some_iff.mp hhead
    exact .take? ((blames_sharp hn hp).bind fun _ _ _ => .pure trivial)
  · next hhead =>
    have hbar (taken : String) : Failure.Explained text ⟨.unclosedSymbol taken, p⟩ :=
      ⟨cs, hp, hhead⟩
    have hsymbol : Blames (lexicon options).isAtomChar text cs.tail
        (Lexeme.barredSymbol p : ReadM Unit (List Char)) Anything :=
      .onCursor (Lexeme.blames_barredSymbol hbar)
    exact .take? (hsymbol.bind fun _ _ _ => .pure trivial)
  · next hhead =>
    have hmark : Failure.Explained text ⟨.tooDeep, p⟩ := ⟨cs, hp, .inr (.inl hhead)⟩
    exact .take? ((blames_marked hn options.quote hmark).bind fun _ _ _ => .pure trivial)
  · exact Lexicon.blames_basicToken lexicon_explains

end CommonLisp

theorem commonLisp_explains (options : CommonLisp.Options) : (commonLisp options).Explains where
  trivia _ _ _ := .onCursor (Lexeme.blames_skipComments _)
  token _ hn := CommonLisp.blames_token hn

/-! ## SPARQL -/

namespace Sparql

theorem lexicon_explains : lexicon.Explains := by
  intro text literal start cs _
  show Blames _ text cs (onMemory (atom literal)) Anything
  exact .onMemory

/-- An IRI that is not closed is reported where its bracket stands. -/
theorem blames_angle {p : Pos} (hp : Failure.Explained text ⟨.endOfInput .iri, p⟩) :
    Blames lexicon.isAtomChar text cs (angle p) Anything := by
  refine .peek ?_
  cases cs with
  | nil => exact .pure trivial
  | cons c ds =>
    show Blames _ text (c :: ds) (if !lexicon.isAtomChar c then _ else _) Anything
    split
    · exact .pure trivial
    · split
      · exact .take? (.pure trivial)
      · exact (Blames.onCursor (Lexeme.blames_bracketedIri hp)).bind fun _ _ _ => .onMemory

/-- A datatype is reported where its token begins; there is none only at the end. -/
theorem blames_datatype {x : ReadM Memory Token}
    (hx : Blames lexicon.isAtomChar text cs x (Token.Taken lexicon.brackets cs)) :
    Blames lexicon.isAtomChar text cs (datatype x) Anything := by
  refine .here fun p hp => hx.bind fun token rest htaken => ?_
  have hwrong (htoken : token ≠ .ended) (found : String) :
      Failure.Explained text ⟨.notDatatype found, p⟩ := by
    refine ⟨cs, hp, ?_⟩
    show cs ≠ []
    exact List.ne_nil_of_length_pos (Nat.zero_lt_of_lt (htaken.length_lt htoken))
  cases token with
  | ended =>
    have hcs := htaken.eq_nil.1
    exact .fail ⟨cs, hp, hcs⟩
  | opener b => exact .fail (hwrong (by simp) _)
  | closer b => exact .fail (hwrong (by simp) _)
  | value v =>
    dsimp only
    split
    · exact .pure trivial
    · exact .pure trivial
    · exact .fail (hwrong (by simp) _)

/-- A string may be followed by two marks and a datatype. A single mark is reported itself. -/
theorem blames_quoted {datatype : ReadM Memory Iri}
    (hdatatype : ∀ rest, rest.length < cs.length →
      Blames lexicon.isAtomChar text rest datatype Anything) :
    Blames lexicon.isAtomChar text cs (quoted datatype) Anything := by
  refine (Blames.onCursor Lexeme.blames_string).bind fun r mid hmid => ?_
  obtain ⟨literal, quote⟩ := r
  refine .peek ?_
  split
  · refine .take? ?_
    exact (Blames.onCursor Lexeme.blames_literal).bind fun _ _ _ => .onMemory
  · next hhead =>
    obtain ⟨ds, rfl⟩ := List.head?_eq_some_iff.mp hhead
    refine .here fun p hp => .take? (.take rfl fun c es hds => ?_)
    split
    · -- The datatype stands behind the string, so there is less left.
      have hlt : es.length < cs.length := by
        have hds : ds = c :: es := hds
        rw [hds, List.length_cons, List.length_cons] at hmid
        omega
      exact (hdatatype es hlt).bind fun _ _ _ => .onMemory
    · exact .fail ⟨'^' :: ds, hp, List.cons_ne_nil _ _⟩
  · exact .onMemory

theorem blames_plainToken : Blames lexicon.isAtomChar text cs plainToken Anything := by
  refine (Lexicon.blames_basicToken lexicon_explains).bind fun token _ _ => ?_
  refine .onMemory_bind fun _ => ?_
  split
  · exact .onMemory_bind fun _ => .pure trivial
  · exact .pure trivial

/-- A token, if the datatypes that stand further on are explained. -/
theorem blames_tokenWith {datatype : ReadM Memory Iri}
    (hdatatype : ∀ rest, rest.length < cs.length →
      Blames lexicon.isAtomChar text rest datatype Anything) :
    Blames lexicon.isAtomChar text cs (tokenWith datatype) Anything := by
  refine .here fun p hp => .peek ?_
  split
  · exact (blames_quoted hdatatype).bind fun _ _ _ => .pure trivial
  · exact (blames_quoted hdatatype).bind fun _ _ _ => .pure trivial
  · next hhead =>
    have hopen : Failure.Explained text ⟨.endOfInput .iri, p⟩ := ⟨cs, hp, hhead⟩
    exact .take? ((blames_angle hopen).bind fun _ _ _ => .pure trivial)
  · exact blames_plainToken

/-- A datatype stands after its literal, so the allowance suffices for all that are inside each
other. -/
theorem blames_tokenIn (xs : List Char) (hle : cs.length ≤ xs.length) :
    Blames lexicon.isAtomChar text cs (tokenIn xs) Anything := by
  induction xs generalizing cs with
  | nil =>
    -- Nothing is left, so there is no literal that could have a datatype.
    refine blames_tokenWith fun rest hlt => ?_
    rw [List.length_nil] at hle
    omega
  | cons x xs ih =>
    refine blames_tokenWith fun rest hlt => blames_datatype ?_
    rw [List.length_cons] at hle
    have htoken : Blames lexicon.isAtomChar text rest (tokenIn xs) Anything := ih (by omega)
    have htracks (p : Pos) : Tracks lexicon.isAtomChar {} p [] rest (tokenIn xs) (tokenIn xs)
        (Token.Needs lexicon.isAtomChar {}) (Token.Taken lexicon.brackets rest) :=
      tracks_tokenIn (Nat.le_refl xs.length) fun _ => rfl
    exact (htoken.and_tracks htracks).mono fun _ _ h => h.2.1

/-- A token of SPARQL: its text is allowance enough. -/
theorem blames_token (cs : List Char) : Blames lexicon.isAtomChar text cs token Anything := by
  intro s hs
  have hunread : s.cursor.unread = cs := by
    obtain ⟨p, -, hat⟩ := hs
    exact hat.unread
  have htoken : Blames lexicon.isAtomChar text cs (tokenIn cs) Anything :=
    blames_tokenIn cs (Nat.le_refl cs.length)
  -- The allowance is what the session has not read yet.
  have hresult := htoken s hs
  rw [← hunread, ← token_def] at hresult
  exact hresult

end Sparql

theorem sparql_explains : sparql.Explains where
  trivia _ _ _ := .onCursor (Lexeme.blames_skipComments _)
  token _ _ := Sparql.blames_token

/-- Every dialect there is explains its failures. -/
theorem Known.explains {d : Dialect σ} : d.Known → d.Explains
  | .basic => basic_explains
  | .extended => extended_explains
  | .scheme => scheme_explains
  | .commonLisp options => commonLisp_explains options
  | .sparql => sparql_explains

/-! ## Values, lists and documents -/

/-- An item knows the place it was read at: that of a closing bracket, or the end of the text. -/
def Item.Explained (text : List Char) : Item → Prop
  | .value _ => True
  | .closer b p => ∀ expected, Failure.Explained text ⟨.strayCloser expected b, p⟩
  | .ended p => Failure.Explained text ⟨.endOfInput .value, p⟩

section

variable {d : Dialect σ} {n : Nested σ}

/-- An item hands on the place where its token was read. -/
theorem blames_item (hd : d.Known) (htracked : Nested.Tracked d.isAtomChar {} n n)
    (hn : n.Explains d.isAtomChar text) :
    Blames d.isAtomChar text cs (d.item n) fun i _ => i.Explained text := by
  refine (hd.explains.trivia htracked hn cs).bind fun _ mid _ => .here fun p hp => ?_
  -- A bracket is the character that stands where the token was read.
  have htoken := (hd.explains.token htracked hn mid).and_tracks (hd.tracked.token htracked · mid)
  refine htoken.bind fun token rest h => ?_
  have htaken := h.2.1
  cases token with
  | ended => exact .pure ⟨mid, hp, htaken.eq_nil.1⟩
  | value v => exact .pure trivial
  | opener b =>
    have hopen : Failure.Explained text ⟨.endOfInput (.close b), p⟩ :=
      ⟨mid, hp, .inl htaken.head?_of_opener⟩
    exact (hn.items b p rest hopen).bind fun _ _ _ => .pure trivial
  | closer b => exact .pure fun _ => ⟨mid, hp, htaken.head?_of_closer⟩

/-- A value is missing where its item is a bracket or the end. -/
theorem blames_value (hd : d.Known) (htracked : Nested.Tracked d.isAtomChar {} n n)
    (hn : n.Explains d.isAtomChar text) :
    Blames d.isAtomChar text cs (d.value n) Anything := by
  refine (blames_item hd htracked hn).bind fun i rest hi => ?_
  cases i with
  | value v => exact .pure trivial
  | closer b p => exact .stray hi
  | ended p => exact .fail hi

/-- A list that is not closed is blamed on its opening bracket. -/
theorem blames_items (hd : d.Known) (htracked : Nested.Tracked d.isAtomChar {} n n)
    (hn : n.Explains d.isAtomChar text) {b : Bracket} {start : Pos}
    (hstart : Failure.Explained text ⟨.endOfInput (.close b), start⟩) :
    Blames d.isAtomChar text cs (d.items n b start) Anything := by
  refine Blames.loop (τ := Session σ) (fun taken cs => ?_) []
  have hround : Blames d.isAtomChar text cs (d.itemsRound n b start taken) Anything := by
    refine (blames_item hd htracked hn).bind fun i rest hi => ?_
    cases i with
    | value v => exact .pure trivial
    | ended p => exact .fail hstart
    | closer got p =>
      show Blames _ text rest (if got = b then _ else _) Anything
      split
      · exact .pure trivial
      · exact .stray hi
  have htracks := hd.tracked.itemsRound htracked b start taken
  exact (hround.and_tracks (htracks · cs)).mono fun _ _ h _ _ => h.2.1.1

/-- **What is nested** is blamed on the place of its bracket or mark, however deep it is. -/
theorem nested_explains (hd : d.Known) (room : Nat) :
    (d.nested room).Explains d.isAtomChar text := by
  induction room with
  | zero => exact ⟨fun start _ h => .fail h, fun b start _ h => .fail h.tooDeep⟩
  | succ room ih =>
    have htracked := hd.tracked.nested {} room
    refine ⟨fun start cs _ => .within ?_ .mark, fun b start cs h => .within ?_ (.list b)⟩
    · exact blames_value hd htracked ih
    · exact blames_items hd htracked ih h

/-- All values of a text: its failures are explained. -/
theorem blames_readAll (hd : d.Known) : Blames d.isAtomChar text cs d.readAll Anything := by
  refine Blames.loop (τ := Session σ) (fun taken cs => ?_) []
  have hround : Blames d.isAtomChar text cs (d.readAllRound taken) Anything := by
    intro s hs
    have hcollect : Blames d.isAtomChar text cs (d.item (d.nested s.room) >>= collect taken)
        Anything := by
      refine (blames_item hd (hd.tracked.nested {} s.room) (nested_explains hd s.room)).bind
        fun i rest hi => ?_
      cases i with
      | value v => exact .pure trivial
      | closer b p => exact .stray hi
      | ended p => exact .pure trivial
    exact hcollect s hs
  exact (hround.and_tracks (hd.tracked.readAllRound taken · cs)).mono fun _ _ h => h.2.1.1

end

end Dialect

/-! ## Offsets -/

namespace Pos

/-- The place comes earlier: on an earlier line, or to the left on the same line. -/
def Before (p p' : Pos) : Prop := p.line < p'.line ∨ p.line = p'.line ∧ p.col < p'.col

/-- Every character brings the place forward. -/
theorem before_advance (p : Pos) (c : Char) : p.Before (p.advance c) := by
  unfold advance Before
  split
  · exact .inl (Nat.lt_succ_self _)
  · exact .inr ⟨rfl, Nat.lt_succ_self _⟩

theorem Before.trans {p₁ p₂ p₃ : Pos} (h : p₁.Before p₂) (h' : p₂.Before p₃) : p₁.Before p₃ := by
  unfold Before at *
  omega

theorem not_before_self (p : Pos) : ¬ p.Before p := by
  unfold Before
  omega

/-- Every character of a text brings its place forward. -/
theorem before_advanceAll (p : Pos) {cs : List Char} (hcs : cs ≠ []) :
    p.Before (p.advanceAll cs) := by
  induction cs generalizing p with
  | nil => exact absurd rfl hcs
  | cons c cs ih =>
    have hfirst := before_advance p c
    show p.Before ((p.advance c).advanceAll cs)
    by_cases hmore : cs = []
    · rw [hmore]
      exact hfirst
    · exact hfirst.trans (ih (p.advance c) hmore)

/-- A place of the text is that of one offset only. -/
theorem advanceAll_take_inj {text : List Char} {k o : Nat} (hk : k ≤ text.length)
    (ho : o ≤ text.length)
    (h : Pos.start.advanceAll (text.take k) = Pos.start.advanceAll (text.take o)) : k = o := by
  have hlt {k o : Nat} (ho : o ≤ text.length) (hko : k < o) :
      (Pos.start.advanceAll (text.take k)).Before (Pos.start.advanceAll (text.take o)) := by
    have hsplit : text.take o = text.take k ++ (text.take o).drop k := by
      conv => lhs; rw [← List.take_append_drop k (text.take o)]
      rw [List.take_take, Nat.min_eq_left (Nat.le_of_lt hko)]
    have hmore : (text.take o).drop k ≠ [] := by
      apply List.ne_nil_of_length_pos
      rw [List.length_drop, List.length_take]
      omega
    rw [hsplit, advanceAll_append]
    exact before_advanceAll _ hmore
  rcases Nat.lt_trichotomy k o with hko | hko | hko
  · have hbefore := hlt ho hko
    rw [h] at hbefore
    exact absurd hbefore (not_before_self _)
  · exact hko
  · have hbefore := hlt hk hko
    rw [h] at hbefore
    exact absurd hbefore (not_before_self _)

end Pos

/-- An explained failure has one offset in the text, and its cause stands there. -/
theorem Failure.Explained.exists_offset {text : List Char} {e : Failure} (h : e.Explained text) :
    ∃ o ≤ text.length, (∀ k ≤ text.length, e.pos = Pos.start.advanceAll (text.take k) ↔ k = o) ∧
      e.cause.Marks (text.drop o) := by
  obtain ⟨rest, ⟨front, rfl, hpos⟩, hmarks⟩ := h
  have hle : front.length ≤ (front ++ rest).length := by
    rw [List.length_append]
    omega
  have htake : e.pos = Pos.start.advanceAll ((front ++ rest).take front.length) := by
    rw [List.take_left, hpos]
  refine ⟨front.length, hle, fun k hk => ⟨fun h => ?_, fun h => ?_⟩, ?_⟩
  · exact Pos.advanceAll_take_inj hk hle (h.symm.trans htake)
  · rw [h]
    exact htake
  · rw [List.drop_left]
    exact hmarks

namespace Dialect

variable {σ : Type}

/-- **Errors point at their cause.** If reading all of a text fails, there is just one offset in the
text whose place is the one that is reported, and what is left of the text there begins with what
the failure is about. -/
theorem readAll_error_marks (d : Dialect σ) (hd : d.Known) (text : List Char) (memory : σ)
    (limit : Nat) {e : Failure} {u : Session σ}
    (h : d.readAll (.fresh text none memory limit) = .error e u) :
    ∃ o ≤ text.length, (∀ k ≤ text.length, e.pos = Pos.start.advanceAll (text.take k) ↔ k = o) ∧
      e.cause.Marks (text.drop o) := by
  have hstands : StandsBefore d.isAtomChar text text (Session.fresh text none memory limit) :=
    ⟨.start, ⟨[], rfl, rfl⟩, Session.fresh_at d.isAtomChar text none memory limit⟩
  exact ((blames_readAll hd).of_error hstands h).exists_offset

/-- The bracket that would close the vector is in a comment, so the sharp sign on the line before is
reported. -/
theorem readAll_error_marks_commonLisp :
    ∃ u, (commonLisp {}).readAll (.fresh "a\n#('(b)\n \"c\" ;)\n".toList none () 3)
        = .error ⟨.endOfInput (.close .round), ⟨1, 0⟩⟩ u ∧
      ∃ o ≤ "a\n#('(b)\n \"c\" ;)\n".length,
        (∀ k ≤ "a\n#('(b)\n \"c\" ;)\n".length,
          ⟨1, 0⟩ = Pos.start.advanceAll ("a\n#('(b)\n \"c\" ;)\n".toList.take k) ↔ k = o) ∧
        (Cause.endOfInput (.close .round)).Marks ("a\n#('(b)\n \"c\" ;)\n".toList.drop o) := by
  have herror : (match (commonLisp {}).readAll
        (.fresh "a\n#('(b)\n \"c\" ;)\n".toList none () 3) with
      | .ok _ _ => none
      | .error e _ => some e) = some ⟨.endOfInput (.close .round), ⟨1, 0⟩⟩ := by decide +kernel
  cases h : (commonLisp {}).readAll (.fresh "a\n#('(b)\n \"c\" ;)\n".toList none () 3) with
  | ok vs u =>
    rw [h] at herror
    cases herror
  | error e u =>
    rw [h] at herror
    cases herror
    exact ⟨u, rfl, readAll_error_marks (commonLisp {}) (.commonLisp {}) _ () 3 h⟩

/-- With less room it is the bracket in the vector that is reported, as it comes after a quote. -/
example : (match (commonLisp {}).readAll
      (.fresh "a\n#('(b)\n \"c\" ;)\n".toList none () 2) with
    | .ok _ _ => none
    | .error e _ => some e) = some ⟨.tooDeep, ⟨1, 3⟩⟩ := by decide +kernel

end Dialect

end SExpr
