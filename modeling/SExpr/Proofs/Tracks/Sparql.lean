import SExpr.Dialect.Sparql
import SExpr.Proofs.Tracks.Token

/-!
# Two readings of a SPARQL token

A literal in quotes may be followed by its language or its datatype, and a datatype is a token; so
these are read alike too if what follows ends a literal. The second reading has at least as much
allowance for datatypes inside each other as the first one.
-/

namespace SExpr.Dialect.Sparql

open ReadM Text

variable {t : Twin} {p : Pos} {cs : List Char}

theorem lexicon_tracked : lexicon.Tracked := by
  intro t text start p cs
  show Tracks _ t p [] cs (onMemory (atom text)) (onMemory (atom text)) _ _
  exact .onMemory fun _ => rfl

/-- What follows an opening bracket is read alike if the literal ends alike. -/
theorem tracks_angle (start : Pos) :
    Tracks lexicon.isAtomChar t p [] cs (angle start) (angle (start.down t.lines))
      (fun _ => t.Stops lexicon.isAtomChar) fun _ _ => True := by
  refine .peek (fun _ _ _ hsuffix _ h => h.mono hsuffix) (fun d ds hcs => ?_) fun hcs r hr => ?_
  · subst hcs
    simp only
    split
    · exact .pure trivial
    · split
      · exact .take? (fun _ _ _ => .pure trivial) fun h => by cases h
      · exact (Tracks.onCursor (Lexeme.tracks_bracketedIri start)).bind
          (fun _ _ _ _ _ => .onMemory fun _ => trivial) fun _ _ _ _ _ _ _ _ => trivial
  · subst hcs
    cases r with
    | none => exact .pure trivial
    | some d =>
      simp only [(hr d rfl).2, Bool.not_false, if_true]
      exact .pure trivial

/-- A datatype is read alike if the token is that it is made of. -/
theorem tracks_datatype {x₁ x₂ : ReadM Memory Token} {P : Token → List Char → Prop}
    (hx : ∀ p, Tracks lexicon.isAtomChar t p [] cs x₁ x₂ (Token.Needs lexicon.isAtomChar t) P) :
    Tracks lexicon.isAtomChar t p [] cs (datatype x₁) (datatype x₂)
      (fun _ => t.Stops lexicon.isAtomChar) fun _ _ => True := by
  refine .here ((hx _).seq (F := fun token mid _ rest => (∃ v, token = .value v) ∧ rest = mid)
    (fun token _ _ _ _ => ?_) (fun _ _ _ _ _ _ _ _ => trivial)
    fun token mid _ rest _ _ h hneed => ?_)
  · split
    · exact .fail
    · exact .fail
    · exact .fail
    · split
      · exact .pure ⟨⟨_, rfl⟩, rfl⟩
      · exact .pure ⟨⟨_, rfl⟩, rfl⟩
      · exact .fail
  · obtain ⟨⟨v, rfl⟩, rfl⟩ := h
    exact hneed

/-- A literal in quotes is read alike, with its tag or datatype, if the literal ends alike. -/
theorem tracks_quoted {d₁ d₂ : ReadM Memory Iri}
    (hd : ∀ p cs, Tracks lexicon.isAtomChar t p [] cs d₁ d₂ (fun _ => t.Stops lexicon.isAtomChar)
      fun _ _ => True) :
    Tracks lexicon.isAtomChar t p [] cs (quoted d₁) (quoted d₂)
      (fun _ => t.Stops lexicon.isAtomChar) fun _ rest => rest.length < cs.length := by
  refine (Tracks.onCursor Lexeme.tracks_string).seq (F := fun _ _ _ _ => True)
    (fun r _ mid _ _ => ?_) (fun _ _ _ _ hmid _ hrest _ => hrest.length_le.trans_lt hmid)
    fun _ _ _ _ _ _ _ _ => trivial
  obtain ⟨text, quote⟩ := r
  refine .peek (fun _ _ _ hsuffix _ h => h.mono hsuffix) (fun d ds hmid => ?_) fun hmid r hr => ?_
  · subst hmid
    split
    · refine .take? (fun _ _ _ => .after ?_) fun h => by cases h
      exact (Tracks.onCursor Lexeme.tracks_literal).bind
        (fun _ _ _ _ _ => .onMemory fun _ => trivial) fun _ _ _ _ _ hsuffix _ h => h.mono hsuffix
    · refine .here (.take? (fun _ _ _ => .take fun e es _ => .after ?_) fun h => by cases h)
      split
      · exact (hd _ es).bind (fun _ _ _ _ _ => .onMemory fun _ => trivial)
          fun _ _ _ _ _ hsuffix _ h => h.mono hsuffix
      · exact .fail
    · exact .onMemory fun _ => trivial
  · subst hmid
    -- What follows ends a literal, so it is neither of the signs.
    split
    · next heq => cases heq
    · next heq => cases heq
    · split
      · cases (hr '@' rfl).2
      · cases (hr '^' rfl).2
      · exact .onMemory fun _ => trivial

/-- It makes no difference to how a token is taken which value it is. -/
theorem taken_value_congr {brackets : List Bracket} {rest : List Char} {v v' : Value}
    (h : Token.Taken brackets cs (.value v) rest) : Token.Taken brackets cs (.value v') rest := by
  cases h with
  | bracket hd => exact absurd rfl (bracketToken?_ne_value hd v)
  | value hd hlt => exact .value hd hlt

/-- A token that all dialects have; a symbol stands for what the session knows of it. -/
def plainToken : ReadM Memory Token := do
  let token ← lexicon.basicToken
  onMemory fun m => ((), m.seen token)
  match token with
  | .value (.atom (.symbol name)) => return .value (← onMemory (symbol name.toList))
  | token => return token

/-- A token without quotes and brackets is read alike, and looked up in the memory once it has been
taken. -/
theorem tracks_plainToken :
    Tracks lexicon.isAtomChar t p [] cs plainToken plainToken (Token.Needs lexicon.isAtomChar t)
      (Token.Taken lexicon.brackets cs) := by
  refine (Lexicon.tracks_basicToken lexicon_tracked).seq (F := fun token mid token' rest =>
      rest = mid ∧ (token' = token ∨ ∃ v v', token = .value v ∧ token' = .value v'))
    (fun token _ _ _ _ => .onMemory_bind fun _ => ?_) (fun token mid token' rest htaken _ _ h => ?_)
    fun token mid token' rest _ _ h hneeds => ?_
  · split
    · exact .onMemory_bind fun _ => .pure ⟨rfl, .inr ⟨_, _, rfl, rfl⟩⟩
    · exact .pure ⟨rfl, .inl rfl⟩
  · obtain ⟨rfl, rfl | ⟨v, v', rfl, rfl⟩⟩ := h
    · exact htaken
    · exact taken_value_congr htaken
  · obtain ⟨rfl, rfl | ⟨v, v', rfl, rfl⟩⟩ := h
    · exact hneeds
    · exact hneeds

/-- A literal in quotes is a token that is read alike. -/
theorem tracks_quotedToken {d₁ d₂ : ReadM Memory Iri} {d : Char} {ds : List Char}
    (hdatatype : ∀ p cs, Tracks lexicon.isAtomChar t p [] cs d₁ d₂
      (fun _ => t.Stops lexicon.isAtomChar) fun _ _ => True)
    (hd : bracketToken? lexicon.brackets d = none) :
    Tracks lexicon.isAtomChar t p [] (d :: ds) (do return Token.value (← quoted d₁))
      (do return Token.value (← quoted d₂)) (Token.Needs lexicon.isAtomChar t)
      (Token.Taken lexicon.brackets (d :: ds)) := by
  refine (tracks_quoted hdatatype).seq (F := fun v mid token rest => token = .value v ∧ rest = mid)
    (fun _ _ _ _ _ => .pure ⟨rfl, rfl⟩) (fun v mid token rest hmid _ _ h => ?_)
    fun v mid token rest _ _ h hneeds => ?_
  · obtain ⟨rfl, rfl⟩ := h
    exact .value hd hmid
  · obtain ⟨rfl, rfl⟩ := h
    exact hneeds

/-- A token is read alike by its first character, if datatypes are. -/
theorem tracks_tokenWith {d₁ d₂ : ReadM Memory Iri}
    (hd : ∀ p cs, Tracks lexicon.isAtomChar t p [] cs d₁ d₂ (fun _ => t.Stops lexicon.isAtomChar)
      fun _ _ => True) :
    Tracks lexicon.isAtomChar t p [] cs (tokenWith d₁) (tokenWith d₂)
      (Token.Needs lexicon.isAtomChar t) (Token.Taken lexicon.brackets cs) := by
  -- A token that needs something to follow is not empty. Before the end both readings see the same
  -- character, and at the end the second one may see what follows, which is no quote.
  refine .here (.peek (fun hcs token rest _ htaken hneeds => ?_) (fun d ds hcs => ?_)
    fun hcs r hr => ?_)
  · subst hcs
    exact absurd rfl (htaken.ne_nil hneeds)
  · subst hcs
    split
    · next heq =>
      cases heq
      exact tracks_quotedToken hd rfl
    · next heq =>
      cases heq
      exact tracks_quotedToken hd rfl
    · next heq =>
      cases heq
      exact Lexicon.tracks_valueToken (g := id) rfl fun _ => tracks_angle _
    · exact tracks_plainToken
  · subst hcs
    split
    · next heq => cases heq
    · next heq => cases heq
    · next heq => cases heq
    · split
      · cases (hr '"' rfl).2
      · cases (hr '\'' rfl).2
      · cases (hr '<' rfl).2
      · exact tracks_plainToken

/-- **Tokens within tokens** within a given allowance, of which the second reading has at least as
much. -/
theorem tracks_tokenIn {xs ys : List Char} (hle : xs.length ≤ ys.length)
    (hsame : t.Same → xs.length = ys.length) :
    Tracks lexicon.isAtomChar t p [] cs (tokenIn xs) (tokenIn ys)
      (Token.Needs lexicon.isAtomChar t) (Token.Taken lexicon.brackets cs) := by
  induction xs generalizing ys p cs with
  | nil =>
    cases ys with
    | nil =>
      refine tracks_tokenWith fun p cs => tracks_datatype (P := fun _ _ => True) fun _ => ?_
      exact .pure trivial
    | cons y ys =>
      have hnot : ¬ t.Same := fun h => by simpa using hsame h
      refine tracks_tokenWith fun p cs s c hs hc => ?_
      exact ⟨[], cs, t.cut, rfl, hs, fun h => absurd h hnot⟩
  | cons x xs ih =>
    cases ys with
    | nil => simp at hle
    | cons y ys =>
      rw [List.length_cons, List.length_cons] at hle hsame
      refine tracks_tokenWith fun p cs => tracks_datatype (P := Token.Taken lexicon.brackets cs)
        fun _ => ?_
      exact ih (by omega) fun h => by have := hsame h; omega

/-- All tokens are read alike, as the text that is left allows for all datatypes within each other.
-/
theorem tracks_token (p : Pos) (cs : List Char) :
    Tracks lexicon.isAtomChar t p [] cs token token (Token.Needs lexicon.isAtomChar t)
      (Token.Taken lexicon.brackets cs) := by
  intro s c hs hc
  show Outcome _ t p cs _ _ (token s) (token { s with cursor := c })
  rw [token_def, token_def, show s.cursor.unread = cs from hs.unread, hc.unread]
  refine tracks_tokenIn ?_ (fun hsame => ?_) s c hs hc
  · rw [List.length_append]
    omega
  · rw [hsame.2.1, List.append_nil]

end SExpr.Dialect.Sparql

namespace SExpr.Dialect

theorem sparql_tracked : sparql.Tracked where
  trivia _ _ _ := tracks_skipComments _ (by decide)
  token _ := Sparql.tracks_token

end SExpr.Dialect
