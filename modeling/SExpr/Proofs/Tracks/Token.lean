import SExpr.Dialect.CommonLisp
import SExpr.Dialect.Plain
import SExpr.Dialect.Scheme
import SExpr.Proofs.Token
import SExpr.Proofs.Tracks.Lexeme

/-!
# Two readings of a token

A token is a bracket, or a value that begins with some other character, or the end. Brackets are
read alike whatever follows; values, if what follows ends a literal. What stands before a token is
skipped alike if there is a token.

These are the rules that a dialect has to follow, `Dialect.Tracked`; all dialects but the last one
are shown to do so here.
-/

namespace SExpr

open ReadM Text

/-! ## Tokens -/

namespace Token

/-- Where a token leaves off that was read before `cs`. -/
inductive Taken (brackets : List Bracket) : List Char → Token → List Char → Prop where
  | ended : Taken brackets [] .ended []
  | bracket {d : Char} {ds : List Char} {token : Token} :
    bracketToken? brackets d = some token → Taken brackets (d :: ds) token ds
  | value {d : Char} {ds rest : List Char} {v : Value} :
    bracketToken? brackets d = none → rest.length < (d :: ds).length →
      Taken brackets (d :: ds) (.value v) rest

/-- What has to follow a token for it to be read alike. -/
def Needs (q : Char → Bool) (t : Twin) : Token → List Char → Prop
  | .ended, _ => False
  | .opener _, _ => True
  | .closer _, _ => True
  | .value _, rest => t.Stops q rest

/-- What has to be left for a token to come. -/
abbrev Ahead {α : Type} (q : Char → Bool) (t : Twin) : α → List Char → Prop :=
  fun _ rest => rest ≠ [] ∧ t.Stops q rest

/-- The text begins with a bracket, if it is not at its end. -/
abbrev AtBracket (brackets : List Bracket) (cs : List Char) : Prop :=
  ∀ c ∈ cs.head?, bracketToken? brackets c ≠ none

/-- A bracket cannot stand in a literal. -/
theorem isAtomChar_of_bracketToken?_eq_some {brackets : List Bracket} {d : Char} {token : Token}
    (h : bracketToken? brackets d = some token) : isAtomChar brackets d = false := by
  cases hd : isAtomChar brackets d with
  | false => rfl
  | true =>
    rw [bracketToken?_of_isAtomChar hd] at h
    cases h

/-- What the token of a bracket says about it. -/
theorem bracketToken?_cases {brackets : List Bracket} {d : Char} {token : Token}
    (h : bracketToken? brackets d = some token) :
    ∃ b ∈ brackets, d = b.opening ∧ token = .opener b ∨ d = b.closing ∧ token = .closer b := by
  obtain ⟨b, hmem, hb⟩ := List.exists_of_findSome?_eq_some h
  refine ⟨b, hmem, ?_⟩
  split at hb
  · next hopen =>
    cases hb
    exact .inl ⟨hopen, rfl⟩
  · split at hb
    · next hclose =>
      cases hb
      exact .inr ⟨hclose, rfl⟩
    · cases hb

/-- A bracket is one of four characters. -/
theorem mem_of_bracketToken?_eq_some {brackets : List Bracket} {d : Char} {token : Token}
    (h : bracketToken? brackets d = some token) : d ∈ ['(', ')', '[', ']'] := by
  obtain ⟨b, -, ⟨rfl, -⟩ | ⟨rfl, -⟩⟩ := bracketToken?_cases h
  · cases b <;> decide
  · cases b <;> decide

/-- Only an empty text has the end as its token. -/
theorem Taken.eq_nil {brackets : List Bracket} {cs rest : List Char}
    (h : Taken brackets cs .ended rest) : cs = [] ∧ rest = [] := by
  cases h with
  | ended => exact ⟨rfl, rfl⟩
  | bracket hd =>
    obtain ⟨b, -, ⟨-, htoken⟩ | ⟨-, htoken⟩⟩ := bracketToken?_cases hd
    · cases htoken
    · cases htoken

/-- What is needed for a token is there for all of the text that it takes. -/
theorem Taken.stops {brackets : List Bracket} {t : Twin} {cs rest : List Char} {token : Token}
    (h : Taken brackets cs token rest) (hsuffix : rest <:+ cs)
    (hneeds : Needs (isAtomChar brackets) t token rest) : t.Stops (isAtomChar brackets) cs := by
  cases h with
  | ended => exact hneeds.elim
  | bracket hd =>
    exact Twin.stops_of_mem List.mem_cons_self (isAtomChar_of_bracketToken?_eq_some hd)
  | value _ _ => exact Twin.Stops.mono hneeds hsuffix

/-- A token that needs something of what follows is not the end, so the text is not empty. -/
theorem Taken.ne_nil {brackets : List Bracket} {q : Char → Bool} {t : Twin}
    {cs rest : List Char} {token : Token} (h : Taken brackets cs token rest)
    (hneeds : Needs q t token rest) : cs ≠ [] := by
  cases h with
  | ended => exact hneeds.elim
  | bracket _ => exact List.cons_ne_nil _ _
  | value _ _ => exact List.cons_ne_nil _ _

/-- Every token but the end takes a character at least. -/
theorem Taken.length_lt {brackets : List Bracket} {cs rest : List Char} {token : Token}
    (h : Taken brackets cs token rest) (htoken : token ≠ .ended) : rest.length < cs.length := by
  cases h with
  | ended => exact absurd rfl htoken
  | bracket _ => simp
  | value _ hlt => exact hlt

end Token

/-! ## Rules for dialects -/

/-- What is nested is read alike: a value after a mark if what follows ends a literal, and the items
of a list whatever follows. -/
structure Nested.Tracked {σ : Type} (q : Char → Bool) (t : Twin) (n₁ n₂ : Nested σ) : Prop where
  datum : ∀ start p cs, Tracks q t p [] cs (n₁.datum start) (n₂.datum (start.down t.lines))
    (fun _ => t.Stops q) fun _ _ => True
  items : ∀ b start p cs, Tracks q t p [] cs (n₁.items b start) (n₂.items b (start.down t.lines))
    (fun _ _ => True) fun _ _ => True

/-- Atoms are read alike: they depend only on their text. -/
def Lexicon.Tracked {σ : Type} (l : Lexicon σ) : Prop :=
  ∀ t text start p cs, Tracks l.isAtomChar t p [] cs (l.atom text start)
    (l.atom text (start.down t.lines)) (fun _ _ => True) fun _ rest => rest = cs

/-- What comes before a token, and the token, are read alike by the dialect. -/
structure Dialect.Tracked {σ : Type} (d : Dialect σ) : Prop where
  trivia : ∀ {t n₁ n₂}, Nested.Tracked d.isAtomChar t n₁ n₂ → ∀ p cs,
    Tracks d.isAtomChar t p [] cs (d.trivia n₁) (d.trivia n₂)
      (Token.Ahead d.isAtomChar t) fun _ rest => Token.AtBracket d.brackets cs → rest = cs
  token : ∀ {t n₁ n₂}, Nested.Tracked d.isAtomChar t n₁ n₂ → ∀ p cs,
    Tracks d.isAtomChar t p [] cs (d.token n₁) (d.token n₂) (Token.Needs d.isAtomChar t)
      (Token.Taken d.brackets cs)

/-! ## Tokens that all dialects have -/

namespace Lexicon

variable {σ : Type} {l : Lexicon σ} {t : Twin} {p : Pos} {cs : List Char}

/-- What is read before a character that is no bracket is a value. -/
theorem taken_value {d : Char} {ds rest : List Char} {token : Token}
    (hd : bracketToken? l.brackets d = none) (hlt : rest.length < (d :: ds).length)
    (htoken : ∃ v, token = .value v) : Token.Taken l.brackets (d :: ds) token rest := by
  obtain ⟨v, rfl⟩ := htoken
  exact .value hd hlt

/-- The value of a text that has been taken. -/
theorem tracks_atom (hatom : l.Tracked) (text : List Char) (start : Pos) :
    Tracks l.isAtomChar t p [] cs (do return Token.value (← l.atom text start))
      (do return Token.value (← l.atom text (start.down t.lines))) (Token.Needs l.isAtomChar t)
      fun token rest => (∃ v, token = .value v) ∧ rest = cs :=
  (hatom t text start p cs).seq (F := fun v mid token rest => token = .value v ∧ rest = mid)
    (fun _ _ _ _ _ => .pure ⟨rfl, rfl⟩)
    (fun v _ _ _ hmid _ _ h => ⟨⟨v, h.1⟩, h.2.trans hmid⟩) fun _ _ _ _ _ _ _ _ => trivial

/-- A literal is taken up to its end, and if it is empty, the next character instead. -/
theorem tracks_literalToken (hatom : l.Tracked) (start : Pos) :
    Tracks l.isAtomChar t p [] cs
      (do match ← l.literal with
          | [] => return Token.value (← l.atom [← Cursor.take .value] start)
          | text => return Token.value (← l.atom text start) : ReadM σ Token)
      (do match ← l.literal with
          | [] => return Token.value (← l.atom [← Cursor.take .value] (start.down t.lines))
          | text => return Token.value (← l.atom text (start.down t.lines)) : ReadM σ Token)
      (Token.Needs l.isAtomChar t)
      fun token rest => (∃ v, token = .value v) ∧ rest.length < cs.length := by
  refine (Tracks.onCursor Lexeme.tracks_literal).seq (F := fun text mid token rest =>
      (∃ v, token = .value v) ∧ (text = [] → rest.length < mid.length))
    (fun text _ mid _ _ => ?_) (fun text mid token rest hmid hcs hrest h => ⟨h.1, ?_⟩)
    fun text mid token rest _ hsuffix h hneeds => ?_
  · cases text with
    | nil =>
      refine .take fun d ds hds => .after ?_
      refine (tracks_atom hatom [d] start).weaken (fun token rest _ h => ⟨h.1, fun _ => ?_⟩)
        fun _ _ _ _ h => h
      rw [h.2, hds, List.length_cons]
      omega
    | cons d ds =>
      refine (tracks_atom hatom (d :: ds) start).weaken
        (fun token rest _ h => ⟨h.1, fun hnil => ?_⟩) fun _ _ _ _ h => h
      cases hnil
  · by_cases htext : text = []
    · exact (h.2 htext).trans_le hcs.length_le
    · -- A literal that is not empty has been taken off the text.
      have hlength :=
        congrArg List.length (List.takeWhile_append_dropWhile (p := l.isAtomChar) (l := cs))
      rw [← hmid.1, ← hmid.2, List.length_append] at hlength
      have hpos := List.length_pos_of_ne_nil htext
      have hle := hrest.length_le
      omega
  · obtain ⟨v, rfl⟩ := h.1
    exact Twin.Stops.mono hneeds hsuffix

/-- **Brackets, strings and literals** are read alike. -/
theorem tracks_basicToken (hatom : l.Tracked) :
    Tracks l.isAtomChar t p [] cs l.basicToken l.basicToken (Token.Needs l.isAtomChar t)
      (Token.Taken l.brackets cs) := by
  refine .here (.peek (fun hcs token rest _ htaken hneeds => ?_) (fun d ds hcs => ?_)
    fun hcs r hr => ?_)
  · subst hcs
    exact absurd rfl (htaken.ne_nil hneeds)
  · subst hcs
    simp only
    cases hd : bracketToken? l.brackets d with
    | some token =>
      refine .take? (fun e es hes => .pure ?_) fun h => by cases h
      cases hes
      exact .bracket hd
    | none =>
      simp only
      split
      · refine (Tracks.onCursor Lexeme.tracks_string).seq
          (F := fun _ mid token rest => (∃ v, token = .value v) ∧ rest = mid)
          (fun _ _ _ _ _ => .pure ⟨⟨_, rfl⟩, rfl⟩) (fun _ mid token rest hmid _ _ h => ?_)
          fun _ _ _ _ _ _ _ _ => trivial
        exact taken_value hd (h.2 ▸ hmid) h.1
      · exact (tracks_literalToken hatom _).weaken
          (fun token rest _ h => taken_value hd h.2 h.1) fun _ _ _ _ h => h
  · subst hcs
    cases r with
    | none => exact .pure .ended
    | some d => exact .pure_of_not_need hr.not_same (fun h => h) .ended

/-- A value after a character that is no bracket. -/
theorem tracks_valueToken {α : Type} {x₁ x₂ : ReadM σ α} {g : α → Value} {d : Char}
    {ds : List Char} (hd : bracketToken? l.brackets d = none)
    (hx : ∀ p, Tracks l.isAtomChar t p [] ds x₁ x₂ (fun _ => t.Stops l.isAtomChar)
      fun _ _ => True) :
    Tracks l.isAtomChar t p [] (d :: ds)
      (do let _ ← Cursor.take?; return Token.value (g (← x₁)) : ReadM σ Token)
      (do let _ ← Cursor.take?; return Token.value (g (← x₂)) : ReadM σ Token)
      (Token.Needs l.isAtomChar t) (Token.Taken l.brackets (d :: ds)) := by
  refine .take? (fun e es hes => ?_) fun h => by cases h
  cases hes
  refine (hx _).seq (F := fun a mid token rest => token = .value (g a) ∧ rest = mid)
    (fun _ _ _ _ _ => .pure ⟨rfl, rfl⟩) (fun a mid token rest _ hmid _ h => ?_)
    fun a mid token rest _ _ h hneeds => ?_
  · obtain ⟨rfl, rfl⟩ := h
    refine .value hd ?_
    have hle := hmid.length_le
    rw [List.length_cons]
    omega
  · obtain ⟨rfl, rfl⟩ := h
    exact hneeds

theorem isAtomChar_newline : l.isAtomChar '\n' = false :=
  isAtomChar_eq_false_iff.mpr (.inl (by decide))

/-- A named character is read alike if the literal ends alike. -/
theorem tracks_character :
    Tracks l.isAtomChar t p [] cs (l.character : ReadM σ Value) l.character
      (fun _ => t.Stops l.isAtomChar) fun _ _ => True :=
  .onCursor ((Lexeme.tracks_character isAtomChar_newline l.spelling).bind
    (fun _ _ _ _ _ => .pure trivial) fun _ _ _ _ _ hsuffix _ h => h.mono hsuffix)

/-- A number in another radix is read alike if the literal ends alike. -/
theorem tracks_radixInteger (radix : Nat) :
    Tracks l.isAtomChar t p [] cs (l.radixInteger radix : ReadM σ Value) (l.radixInteger radix)
      (fun _ => t.Stops l.isAtomChar) fun _ _ => True :=
  .onCursor ((Lexeme.tracks_radixInteger radix).bind
    (fun _ _ _ _ _ => .pure trivial) fun _ _ _ _ _ hsuffix _ h => h.mono hsuffix)

end Lexicon

/-- A word of the plain dialects is looked up without reading any further. -/
theorem tracks_plainAtom {σ : Type} {q : Char → Bool} {t : Twin} (text : List Char)
    (start p : Pos) (cs : List Char) :
    Tracks q t p [] cs (plainAtom text start : ReadM σ Value) (plainAtom text (start.down t.lines))
      (fun _ _ => True) fun _ rest => rest = cs := by
  unfold plainAtom
  split
  · exact .pure rfl
  · exact .fail

/-! ## Blanks and comments -/

namespace Dialect

variable {σ : Type} {q : Char → Bool} {brackets : List Bracket} {t : Twin} {p : Pos}
  {cs : List Char}

/-- Neither blanks nor comments begin with a bracket. -/
theorem bracket_not_skipped {d : Char} (h : bracketToken? brackets d ≠ none) :
    isBlank d = false ∧ d ∉ [';', '#'] := by
  obtain ⟨token, htoken⟩ := Option.ne_none_iff_exists'.mp h
  have hd := Token.mem_of_bracketToken?_eq_some htoken
  simp only [List.mem_cons, List.not_mem_nil, or_false] at hd
  rcases hd with rfl | rfl | rfl | rfl <;> exact ⟨by decide, by decide⟩

/-- Blanks are skipped alike if something comes after them; before a bracket there are none to skip.
-/
theorem tracks_skipBlanks (brackets : List Bracket) :
    Tracks q t p [] cs (Lexeme.skipBlanks : ReadM σ Unit) Lexeme.skipBlanks
      (Token.Ahead q t) fun _ rest => Token.AtBracket brackets cs → rest = cs :=
  Tracks.onCursor (Lexeme.tracks_skipBlanks.weaken
    (fun _ _ _ h hcs => h fun c hc => (bracket_not_skipped (hcs c hc)).1) fun _ _ _ _ h => h.1)

/-- So are comments, as no bracket begins one. -/
theorem tracks_skipComments (brackets : List Bracket) {starts : List Char}
    (hstarts : starts ⊆ [';', '#']) :
    Tracks q t p [] cs (Lexeme.skipComments starts : ReadM σ Unit) (Lexeme.skipComments starts)
      (Token.Ahead q t) fun _ rest => Token.AtBracket brackets cs → rest = cs :=
  Tracks.onCursor ((Lexeme.tracks_skipComments starts).weaken
    (fun _ _ _ h hcs => h fun c hc =>
      (bracket_not_skipped (hcs c hc)).imp_right fun hd hmem => hd (hstarts hmem))
    fun _ _ _ _ h => h.1)

/-! ## Plain dialects -/

theorem basic_tracked : basic.Tracked where
  trivia _ _ _ := tracks_skipBlanks _
  token _ _ _ := Lexicon.tracks_basicToken fun _ => tracks_plainAtom

theorem extended_tracked : extended.Tracked where
  trivia _ _ _ := tracks_skipComments _ (by decide)
  token _ _ _ := Lexicon.tracks_basicToken fun _ => tracks_plainAtom

/-! ## Scheme -/

namespace Scheme

theorem isAtomChar_sharp : schemeLexicon.isAtomChar '#' = true := by decide

theorem bracketToken?_sharp : bracketToken? schemeLexicon.brackets '#' = none :=
  bracketToken?_of_isAtomChar isAtomChar_sharp

/-- What a round of `trivia` does at a sharp sign. -/
def sharpRound (nested : Nested Unit) : ReadM Unit (Unit ⊕ Unit) := do
  let p ← Cursor.here
  let _ ← Cursor.take?
  match ← Cursor.peek with
  | some ';' =>
    let _ ← Cursor.take?
    let _ ← nested.datum p
    return .inl ()
  | some '!' =>
    Lexeme.skipLine
    return .inl ()
  | _ =>
    Cursor.pushBack ['#']
    return .inr ()

theorem triviaRound_eq (nested : Nested Unit) (u : Unit) :
    triviaRound nested u = do
      Lexeme.skipComments [';']
      if (← Cursor.peek) = some '#' then sharpRound nested else return .inr () := rfl

/-- A bracket is not taken, and what goes on has taken something. -/
def Round (cs : List Char) (r : Unit ⊕ Unit) (rest : List Char) : Prop :=
  (Token.AtBracket schemeLexicon.brackets cs → r = .inr () ∧ rest = cs) ∧ Shrinks cs r rest

theorem round_stay (cs : List Char) : Round cs (.inr ()) cs := ⟨fun _ => ⟨rfl, rfl⟩, nofun⟩

/-- A round that has taken the sharp sign has taken something. -/
theorem round_sharp {ds rest : List Char} {r : Unit ⊕ Unit} (h : rest <:+ ds) :
    Round ('#' :: ds) r rest := by
  refine ⟨fun hbracket => absurd bracketToken?_sharp (hbracket '#' rfl), fun _ _ => ?_⟩
  have hle := h.length_le
  rw [List.length_cons]
  omega

/-- A sharp sign that is put back is where it was. -/
theorem tracks_putBack {ds : List Char} {need : Unit ⊕ Unit → List Char → Prop} :
    Tracks schemeLexicon.isAtomChar t p ['#'] ds
      (do Cursor.pushBack ['#']; return .inr () : ReadM Unit (Unit ⊕ Unit))
      (do Cursor.pushBack ['#']; return .inr () : ReadM Unit (Unit ⊕ Unit)) need
      fun r rest => Round ('#' :: ds) r rest ∧ (r = .inr () → rest ≠ []) := by
  show Tracks schemeLexicon.isAtomChar t p ([] ++ ['#']) ds _ _ _ _
  refine Tracks.pushBack (τ := Session Unit) (fun d hd => ?_)
    (.pure ⟨round_stay _, fun _ => List.cons_ne_nil _ _⟩)
  rw [List.mem_singleton.mp hd]
  exact ⟨isAtomChar_sharp, by decide⟩

/-- A sharp sign that begins no comment is put back. What follows it has been looked at, which makes
no difference if that ends a literal. Only a line that is a comment must not come to the end. -/
theorem tracks_sharpRound {n₁ n₂ : Nested Unit}
    (hn : Nested.Tracked schemeLexicon.isAtomChar t n₁ n₂) (p : Pos) (ds : List Char) :
    Tracks schemeLexicon.isAtomChar t p [] ('#' :: ds) (sharpRound n₁) (sharpRound n₂)
      (fun _ rest => t.Stops schemeLexicon.isAtomChar rest ∧ (ds.head? = some '!' → rest ≠ []))
      fun r rest => Round ('#' :: ds) r rest ∧ (r = .inr () → rest ≠ []) := by
  refine .here (.take? (fun e es hes => ?_) fun h => by cases h)
  cases hes
  refine .peek (fun _ _ rest hsuffix _ h => ?_) (fun e es hes => ?_) fun hes r hr => ?_
  · -- Nothing follows the sharp sign. It is put back, so what ends a literal comes after it.
    have hrest : ∀ c ∈ rest, schemeLexicon.isAtomChar c = true := by
      intro c hc
      rw [List.mem_singleton.mp (hsuffix.subset hc)]
      exact isAtomChar_sharp
    refine Lexeme.stops_of_append hrest ?_
    rw [List.append_nil]
    exact h.1
  · subst hes
    split
    · refine .take? (fun e' es' hes => .after ?_) fun h => by cases h
      -- A datum is read alike, whatever it is.
      refine (hn.datum _ _ _).seq (F := fun _ mid r rest => r = .inl () ∧ rest = mid)
        (fun _ _ _ _ _ => .pure ⟨rfl, rfl⟩) (fun _ mid _ rest _ hmid _ h => ?_)
        fun _ _ _ _ _ hsuffix _ h => h.1.mono hsuffix
      rw [h.1, h.2, hes]
      exact ⟨round_sharp (hmid.trans (List.suffix_cons e' es')), nofun⟩
    · next hbang =>
      cases hbang
      refine .after ?_
      -- A line is skipped alike if it does not come to the end.
      refine (Tracks.onCursor Lexeme.tracks_skipLine).seq
        (F := fun _ mid r rest => r = .inl () ∧ rest = mid)
        (fun _ _ _ _ _ => .pure ⟨rfl, rfl⟩) (fun _ mid _ rest _ hmid _ h => ?_)
        fun _ _ _ _ _ hsuffix _ h => Lexeme.left_of_suffix hsuffix (h.2 rfl)
      rw [h.1, h.2]
      exact ⟨round_sharp hmid, nofun⟩
    · exact tracks_putBack
  · subst hes
    show Tracks schemeLexicon.isAtomChar t p ['#'] []
      (do Cursor.pushBack ['#']; return .inr () : ReadM Unit (Unit ⊕ Unit)) _ _ _
    split
    · cases (hr ';' rfl).2
    · cases (hr '!' rfl).2
    · exact tracks_putBack

/-- A round of what Scheme skips is alike if something comes after it. -/
theorem tracks_triviaRound {n₁ n₂ : Nested Unit}
    (hn : Nested.Tracked schemeLexicon.isAtomChar t n₁ n₂) (u : Unit) (p : Pos) (cs : List Char) :
    Tracks schemeLexicon.isAtomChar t p [] cs (triviaRound n₁ u) (triviaRound n₂ u)
      (Token.Ahead schemeLexicon.isAtomChar t) (Round cs) := by
  rw [triviaRound_eq, triviaRound_eq]
  refine Tracks.seq (tracks_skipComments schemeLexicon.brackets (by decide))
    (F := fun _ mid r rest => Round mid r rest)
    (fun _ front mid _ _ => ?_)
    (fun _ mid r rest hmid hcs _ h => ⟨fun hbracket => ?_, fun b hb => ?_⟩)
    fun _ mid _ _ _ hsuffix _ h => ⟨Lexeme.left_of_suffix hsuffix h.1, h.2.mono hsuffix⟩
  · -- After blanks and line comments there may be a sharp sign.
    refine .peek (fun _ _ rest hsuffix _ h => absurd (List.suffix_nil.mp hsuffix) h.1)
      (fun d ds hmid => ?_) fun hmid r hr => ?_
    · subst hmid
      split
      · next hd =>
        cases hd
        exact (tracks_sharpRound hn _ ds).weaken (fun _ _ _ h => h.1)
          fun _ _ _ _ h => ⟨h.2, fun _ => h.1⟩
      · exact .pure (round_stay _)
    · subst hmid
      rw [if_neg (by simp)]
      cases r with
      | none => exact .pure (round_stay _)
      | some d => exact .pure_of_not_need hr.not_same (fun h => h.1 rfl) (round_stay _)
  · have hmid := hmid hbracket
    rw [hmid] at h
    exact h.1 hbracket
  · exact (h.2 b hb).trans_le hcs.length_le

/-- What Scheme skips is skipped alike if something comes after it. -/
theorem tracks_trivia {n₁ n₂ : Nested Unit}
    (hn : Nested.Tracked schemeLexicon.isAtomChar t n₁ n₂) (p : Pos) (cs : List Char) :
    Tracks schemeLexicon.isAtomChar t p [] cs (trivia n₁) (trivia n₂)
      (Token.Ahead schemeLexicon.isAtomChar t) fun _ rest =>
        Token.AtBracket schemeLexicon.brackets cs → rest = cs := by
  refine Tracks.loop (τ := Session Unit) (P := fun _ cs _ rest =>
    Token.AtBracket schemeLexicon.brackets cs → rest = cs) (tracks_triviaRound hn) ?_ ?_ ?_ ?_ ()
  · exact fun _ _ _ _ h hcs => (h.1 hcs).2
  · intro _ cs _ mid _ rest h _ _ _ hcs
    cases (h.1 hcs).1
  · exact fun _ _ h => h
  · exact fun _ _ _ _ _ hsuffix h => ⟨Lexeme.left_of_suffix hsuffix h.1, h.2.mono hsuffix⟩

/-- What follows a sharp sign is read alike if the literal ends alike. -/
theorem tracks_sharp (start : Pos) :
    Tracks schemeLexicon.isAtomChar t p [] cs (sharp start) (sharp (start.down t.lines))
      (fun _ => t.Stops schemeLexicon.isAtomChar) fun _ _ => True := by
  refine .peek (fun _ _ _ hsuffix _ h => h.mono hsuffix) (fun d ds hcs => ?_) fun hcs r hr => ?_
  · subst hcs
    simp only
    split
    · exact .take? (fun _ _ _ => .after Lexicon.tracks_character) fun h => by cases h
    · split
      · exact .take? (fun _ _ _ => .after (Lexicon.tracks_radixInteger _)) fun h => by cases h
      · split
        · refine (Tracks.onCursor Lexeme.tracks_literal).bind (fun text _ _ _ _ => ?_)
            fun _ _ _ _ _ hsuffix _ h => h.mono hsuffix
          split
          · exact .pure trivial
          · exact .fail
        · exact .fail
  · subst hcs
    cases r with
    | none => exact .here .fail
    | some d => exact fun s c hs _ => ⟨[], [], t.cut, rfl, hs, fun h => absurd h hr.not_same⟩

/-- A token of Scheme is read alike: a value after a sharp sign, or one that all dialects have. -/
theorem tracks_token :
    Tracks schemeLexicon.isAtomChar t p [] cs token token
      (Token.Needs schemeLexicon.isAtomChar t) (Token.Taken schemeLexicon.brackets cs) := by
  have hbasic (cs : List Char) : Tracks schemeLexicon.isAtomChar t p [] cs schemeLexicon.basicToken
      schemeLexicon.basicToken (Token.Needs schemeLexicon.isAtomChar t)
      (Token.Taken schemeLexicon.brackets cs) :=
    Lexicon.tracks_basicToken fun _ => tracks_plainAtom
  refine .peek (fun hcs token rest _ htaken hneeds => ?_) (fun d ds hcs => ?_) fun hcs r hr => ?_
  · subst hcs
    exact absurd rfl (htaken.ne_nil hneeds)
  · subst hcs
    split
    · next hd =>
      cases hd
      refine .here (Lexicon.tracks_valueToken (g := id) bracketToken?_sharp fun _ => ?_)
      exact tracks_sharp _
    · exact hbasic (d :: ds)
  · subst hcs
    -- At the end of the first text, the second one cannot go on with a sharp sign, which ends no
    -- literal.
    have hr' : r ≠ some '#' := by
      rintro rfl
      have hd := (hr '#' rfl).2
      rw [isAtomChar_sharp] at hd
      cases hd
    rw [if_neg (by simp), if_neg hr']
    exact hbasic []

end Scheme

theorem scheme_tracked : scheme.Tracked where
  trivia hn := Scheme.tracks_trivia hn
  token _ _ _ := Scheme.tracks_token

/-! ## Common Lisp -/

namespace CommonLisp

variable {options : Options}

/-- A word of Common Lisp is looked up without reading any further. -/
theorem lexicon_tracked : (lexicon options).Tracked := by
  intro t text start p cs
  show Tracks _ t p [] cs (atom options text start) (atom options text (start.down t.lines)) _ _
  unfold atom
  split
  · exact .pure rfl
  · split
    · exact .pure rfl
    · exact tracks_plainAtom text start p cs

/-- A datum after a mark is read alike if it is by itself. -/
theorem tracks_marked {n₁ n₂ : Nested Unit} (hn : Nested.Tracked q t n₁ n₂) (head : String)
    (start : Pos) :
    Tracks q t p [] cs (marked n₁ head start) (marked n₂ head (start.down t.lines))
      (fun _ => t.Stops q) fun _ _ => True :=
  (hn.datum start _ cs).bind (fun _ _ _ _ _ => .pure trivial)
    fun _ _ _ _ _ hsuffix _ h => h.mono hsuffix

/-- What follows a sharp sign is read alike if the literal or the datum ends alike. -/
theorem tracks_sharp {n₁ n₂ : Nested Unit}
    (hn : Nested.Tracked (lexicon options).isAtomChar t n₁ n₂) (start : Pos) :
    Tracks (lexicon options).isAtomChar t p [] cs (sharp options n₁ start)
      (sharp options n₂ (start.down t.lines)) (fun _ => t.Stops (lexicon options).isAtomChar)
      fun _ _ => True := by
  refine .take fun d ds _ => .after ?_
  split
  · exact Lexicon.tracks_radixInteger 2
  · split
    · exact Lexicon.tracks_radixInteger 8
    · split
      · exact Lexicon.tracks_radixInteger 16
      · split
        · exact Lexicon.tracks_character
        · split
          · exact (hn.items .round start _ ds).bind (fun _ _ _ _ _ => .pure trivial)
              fun _ _ _ _ _ _ _ _ => trivial
          · split
            · exact tracks_marked hn options.function start
            · exact .fail

/-- A token of Common Lisp is read alike: after a sharp sign, between bars, after a quote, or one
that all dialects have. -/
theorem tracks_token {n₁ n₂ : Nested Unit}
    (hn : Nested.Tracked (lexicon options).isAtomChar t n₁ n₂) (p : Pos) (cs : List Char) :
    Tracks (lexicon options).isAtomChar t p [] cs (token options n₁) (token options n₂)
      (Token.Needs (lexicon options).isAtomChar t) (Token.Taken (lexicon options).brackets cs) := by
  have hbracket {d : Char} (hd : (lexicon options).isAtomChar d = true) :
      bracketToken? (lexicon options).brackets d = none := bracketToken?_of_isAtomChar hd
  refine .here (.peek (fun hcs token rest _ htaken hneeds => ?_) (fun d ds hcs => ?_)
    fun hcs r hr => ?_)
  · subst hcs
    exact absurd rfl (htaken.ne_nil hneeds)
  · subst hcs
    split
    · next hd =>
      cases hd
      exact Lexicon.tracks_valueToken (g := id) (hbracket rfl) fun _ => tracks_sharp hn _
    · next hd =>
      cases hd
      exact Lexicon.tracks_valueToken (g := fun text => .symbol (String.ofList text))
        (hbracket rfl) fun _ => .onCursor ((Lexeme.tracks_barredSymbol _).weaken
          (fun _ _ _ h => h) fun _ _ _ _ _ => trivial)
    · next hd =>
      cases hd
      exact Lexicon.tracks_valueToken (g := id) (hbracket rfl)
        fun _ => tracks_marked hn options.quote _
    · exact Lexicon.tracks_basicToken lexicon_tracked
  · subst hcs
    -- At the end of the first text, the second one goes on with none of these, as they end no
    -- literal.
    show Tracks _ t p [] [] (lexicon options).basicToken _ _ _
    split
    · cases (hr '#' rfl).2
    · cases (hr '|' rfl).2
    · cases (hr '\'' rfl).2
    · exact Lexicon.tracks_basicToken lexicon_tracked

end CommonLisp

theorem commonLisp_tracked (options : CommonLisp.Options) : (commonLisp options).Tracked where
  trivia _ _ _ := tracks_skipComments _ (by decide)
  token hn := CommonLisp.tracks_token hn

end Dialect

end SExpr
