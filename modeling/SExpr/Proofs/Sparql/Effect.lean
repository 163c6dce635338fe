import SExpr.Proofs.Sparql.Token
import SExpr.Proofs.Tracks.Sparql
import SExpr.Proofs.Trace

/-!
# What a SPARQL token does

A token gives a meaning to one word at most: the literal that it is, or else that its datatype is,
or that the datatype's datatype is. What it makes of the memory is told by this word, whether it can
be read or not.

* **`spelled`**: the word that a token gives a meaning to.
* **`Effect`**: what a token can be and do, by its word and the memory.
* **`token_effect`**: it is and does nothing else.
-/

namespace SExpr.Dialect.Sparql

open ReadM Text

/-! ## Words -/

/-- The literal at a place, or the character there if it cannot be part of one. A bracket is no
word. -/
def word : CursorM (List Char) := do
  match ← Cursor.peek with
  | none => return []
  | some c =>
    match bracketToken? lexicon.brackets c with
    | some _ => return []
    | none =>
      match ← lexicon.literal with
      | [] => return [← Cursor.take .value]
      | text => return text

/-- What is read as a datatype after a literal in quotes. -/
def afterQuoted (datatype : CursorM (List Char)) : CursorM (List Char) := do
  let _ ← Lexeme.string
  let next ← Cursor.peek
  if next = some '^' then
    let _ ← Cursor.take?
    let c ← Cursor.take .datatype
    if c = '^' then datatype else return []
  else return []

/-- The word of a token, where a literal's datatype is read as given. -/
def wordWith (datatype : CursorM (List Char)) : CursorM (List Char) := do
  let first ← Cursor.peek
  if first = some '"' ∨ first = some '\'' then afterQuoted datatype
  else if first = some '<' then return []
  else word

/-- The word of a token, in which datatypes may be nested. -/
def wordIn : List Char → CursorM (List Char)
  | [] => wordWith (return [])
  | _ :: allowance => wordWith (wordIn allowance)

/-- What is read as a word, or none if it cannot be read. -/
def wordAt (x : CursorM (List Char)) (c : Cursor) : List Char :=
  match x c with
  | .ok text _ => text
  | .error _ _ => []

/-- The word that the next token gives a meaning to, if there is one. -/
def spelled (s : Session Memory) : List Char := wordAt (wordIn s.cursor.unread) s.cursor

/-! ## Effects -/

/-- An IRI is mentioned after it may have become the base or the namespace of the name that was
awaited. -/
theorem iri_eq_mention (raw : List Char) (m : Memory) :
    ∃ i ab name base,
      iri raw m =
        mention (.iri i) { m with abbreviations := ab, awaitedName := name, awaitsBase := base } ∧
      (name = m.awaitedName ∨ name = none) := by
  obtain ⟨ab, blanks, vars, depth, region, name, base, fresh, handles⟩ := m
  cases base with
  | false =>
    cases name with
    | none => exact ⟨_, _, none, false, rfl, .inl rfl⟩
    | some name => exact ⟨_, _, none, false, rfl, .inr rfl⟩
  | true =>
    cases name with
    | none => exact ⟨_, _, none, false, rfl, .inl rfl⟩
    | some name => exact ⟨_, _, none, false, rfl, .inr rfl⟩

/-- A symbol is a name to be defined, it begins a `prefix` form, it stands for itself or for an
IRI. -/
theorem symbol_cases (cs : List Char) (m : Memory) :
    (m.region.isSome = true ∧ cs.getLast? = some ':' ∧
        symbol cs m = (.symbol (String.ofList cs),
          { m with awaitedName := some (String.ofList cs.dropLast) })) ∨
      (sameIgnoringCase cs "prefix".toList = true ∧
        symbol cs m = (.symbol (String.ofList cs), { m with region := some (m.depth + 1) })) ∨
      symbol cs m = (.symbol (String.ofList cs), m) ∨
      ∃ i, symbol cs m = mention (.iri i) m := by
  unfold symbol
  simp only
  split
  · next h =>
    rw [Bool.and_eq_true, beq_iff_eq] at h
    exact .inl ⟨h.1, h.2, rfl⟩
  split
  · next h => exact .inr (.inl ⟨h, rfl⟩)
  split
  · exact .inr (.inr (.inl rfl))
  split
  · exact .inr (.inr (.inl rfl))
  · exact .inr (.inr (.inr ⟨_, rfl⟩))

/-- What a token can be, if it can be read, and what is remembered after it, by the word that it
gives a meaning to and by what is remembered before it. -/
inductive Effect (m : Memory) : List Char → Option Token → Memory → Prop
  | failed : Effect m [] none m
  | bracket {token : Token} (plain : ∀ v, token ≠ .value v) : Effect m [] (some token) (m.seen token)
  | operator (name : String) : Effect m [] (some (.value (.symbol name))) m
  | iri (raw : List Char) : Effect m [] (some (.value (iri raw m).1)) (iri raw m).2
  | literal (l : Literal) :
      Effect m [] (some (.value (mention (.literal l) m).1)) (mention (.literal l) m).2
  | word {text : List Char} (ne_nil : text ≠ []) :
      Effect m text (some (.value (meaning text m).1)) (meaning text m).2
  /-- A literal, after its datatype has been read. -/
  | typed {text : List Char} {v : Value} {m' : Memory} (datatype : Effect m text (some (.value v)) m')
      {i : Iri} (eq : datatypeOf? v = some i) (l : Literal) :
      Effect m text (some (.value (mention (.literal l) m').1)) (mention (.literal l) m').2
  /-- What follows a literal is no datatype. -/
  | untyped {text : List Char} {token? : Option Token} {m' : Memory} (other : Effect m text token? m')
      (eq : ∀ v, token? = some (.value v) → datatypeOf? v = none) : Effect m text none m'

/-- What an action returns, if it succeeds. -/
def outcome? {τ α : Type} : EStateM.Result Failure τ α → Option α
  | .ok a _ => some a
  | .error _ _ => none

/-- The word read by `y` from the place of the session, what `x` returns there and the memory it
leaves are related. -/
def Beside {α : Type} (x : ReadM Memory α) (y : CursorM (List Char)) (s : Session Memory)
    (R : List Char → Option α → Memory → Prop) : Prop :=
  R (wordAt y s.cursor) (outcome? (x s)) (Call.leaves x s).memory

namespace Beside

variable {α β γ : Type} {s : Session Memory} {R : List Char → Option α → Memory → Prop}
  {w : List Char}

theorem pure {a : α} (h : R w (some a) s.memory) : Beside (Pure.pure a) (Pure.pure w) s R := h

theorem fail {cause : Cause} {p : Pos} (h : R w none s.memory) :
    Beside (ReadM.fail cause p) (Pure.pure w) s R := h

theorem onMemory {f : Memory → α × Memory} (h : R w (some (f s.memory).1) (f s.memory).2) :
    Beside (ReadM.onMemory f) (Pure.pure w) s R := h

/-- Both read the same off the text. -/
theorem onCursor_bind {x : CursorM β} {f : β → ReadM Memory α} {g : β → CursorM (List Char)}
    (hfail : R [] none s.memory)
    (h : ∀ b c, x s.cursor = .ok b c → Beside (f b) (g b) { s with cursor := c } R) :
    Beside (ReadM.onCursor x >>= f) (x >>= g) s R := by
  unfold Beside wordAt Call.leaves
  cases hx : x s.cursor with
  | ok b c =>
    have hb := h b c hx
    rw [bind_of_ok (onCursor_of_ok hx)]
    have hy : (x >>= g) s.cursor = g b c := by
      simp only [Bind.bind, EStateM.bind, hx]
    rw [hy]
    exact hb
  | error e c =>
    rw [bind_of_error (onCursor_of_error hx)]
    have hy : (x >>= g) s.cursor = .error e c := by
      simp only [Bind.bind, EStateM.bind, hx]
    rw [hy]
    exact hfail

/-- The word is known already. -/
theorem onCursor_bind_left {x : CursorM β} {f : β → ReadM Memory α} (hfail : R w none s.memory)
    (h : ∀ b c, x s.cursor = .ok b c → Beside (f b) (Pure.pure w) { s with cursor := c } R) :
    Beside (ReadM.onCursor x >>= f) (Pure.pure w) s R := by
  unfold Beside Call.leaves
  cases hx : x s.cursor with
  | ok b c =>
    rw [bind_of_ok (onCursor_of_ok hx)]
    exact h b c hx
  | error e c =>
    rw [bind_of_error (onCursor_of_error hx)]
    exact hfail

theorem here_bind {f : Pos → ReadM Memory α} {y : CursorM (List Char)}
    (h : ∀ p, Beside (f p) y s R) : Beside (ReadM.onCursor Cursor.here >>= f) y s R :=
  h s.cursor.pos

theorem onMemory_bind {g : Memory → β × Memory} {f : β → ReadM Memory α} {y : CursorM (List Char)}
    (h : Beside (f (g s.memory).1) y { s with memory := (g s.memory).2 } R) :
    Beside (ReadM.onMemory g >>= f) y s R := h

/-- What comes after has nothing to do with the text. -/
theorem bind {x : ReadM Memory β} {f : β → ReadM Memory α} {y : CursorM (List Char)}
    {Q : List Char → Option β → Memory → Prop} (hx : Beside x y s Q)
    (hfail : ∀ w m, Q w none m → R w none m)
    (hf : ∀ w b u, Q w (some b) u.memory → Beside (f b) (Pure.pure w) u R) :
    Beside (x >>= f) y s R := by
  unfold Beside Call.leaves at hx ⊢
  cases hres : x s with
  | ok b u =>
    rw [hres] at hx
    rw [bind_of_ok hres]
    exact hf _ b u hx
  | error e u =>
    rw [hres] at hx
    rw [bind_of_error hres]
    exact hfail _ _ hx

end Beside

/-! ## Tokens -/

/-- After an opening angle bracket there is an operator or an IRI, and no word. -/
theorem beside_angle (p : Pos) (s : Session Memory) :
    Beside (angle p) (Pure.pure []) s fun w v? m => Effect s.memory w (v?.map .value) m := by
  refine .onCursor_bind_left .failed fun r c _ => ?_
  split
  · exact .pure (.operator "<")
  · split
    · exact .pure (.operator "<")
    · split
      · exact .onCursor_bind_left .failed fun _ _ _ => .pure (.operator "<=")
      · exact .onCursor_bind_left .failed fun raw _ _ => .onMemory (.iri raw)

/-- What a token of those that all dialects have can be, if it is no literal in quotes. -/
inductive BasicEffect (m : Memory) : List Char → Option Token → Memory → Prop
  | failed : BasicEffect m [] none m
  | bracket {token : Token} (plain : ∀ v, token ≠ .value v) : BasicEffect m [] (some token) m
  | word {text : List Char} (ne_nil : text ≠ []) :
      BasicEffect m text (some (.value (atom text m).1)) (atom text m).2

/-- A token of the common kind gives a meaning to its literal, if it has one. -/
theorem beside_basicToken (s : Session Memory)
    (hquote : ∀ c ∈ s.cursor.unread.head?, Quote.ofChar? c = none) :
    Beside lexicon.basicToken word s (BasicEffect s.memory) := by
  have hatom (text : List Char) (p : Pos) (h : text ≠ []) (c : Cursor) :
      Beside (do return Token.value (← lexicon.atom text p)) (Pure.pure text)
        { s with cursor := c } (BasicEffect s.memory) := by
    show Beside (ReadM.onMemory (atom text) >>= fun v => Pure.pure (Token.value v)) _ _ _
    exact .onMemory_bind (.pure (.word h))
  refine .here_bind fun p => .onCursor_bind .failed fun r c hpeek => ?_
  have hr := (Cursor.ensures_peek _ r c hpeek).1
  cases r with
  | none => exact .pure (.bracket fun _ => Token.noConfusion)
  | some d =>
    simp only
    -- A bracket is a token by itself; otherwise the literal is the word, of one character at least.
    cases hbracket : bracketToken? lexicon.brackets d with
    | some token =>
      exact .onCursor_bind_left .failed fun _ _ _ => .pure (.bracket (bracketToken?_ne_value hbracket))
    | none =>
      have hd : (Quote.ofChar? d).isSome = false := by rw [hquote d hr.symm, Option.isSome_none]
      simp only [hd, Bool.false_eq_true, if_false]
      refine .onCursor_bind .failed fun text c' _ => ?_
      cases text with
      | nil =>
        exact .onCursor_bind .failed fun d c'' _ => hatom [d] p (List.cons_ne_nil d []) c''
      | cons e text => exact hatom (e :: text) p (List.cons_ne_nil e text) c'

/-- What a value is taken for. Only a symbol is looked at again. -/
theorem beside_classify {s : Session Memory} {w : List Char} {v : Value}
    {R : List Char → Option Token → Memory → Prop}
    (h : R w (some (.value (classify v s.memory).1)) (classify v s.memory).2) :
    Beside (match Token.value v with
      | .value (.atom (.symbol name)) => return .value (← onMemory (symbol name.toList))
      | token => return token) (Pure.pure w) s R := by
  cases v with
  | atom a =>
    cases a with
    | symbol name => exact .onMemory_bind (.pure h)
    | nil => exact .pure h
    | bool b => exact .pure h
    | char c => exact .pure h
    | string text quote => exact .pure h
    | number n => exact .pure h
  | list items => exact .pure h
  | vector items => exact .pure h
  | term i t => exact .pure h

/-- A token that is neither quoted nor an IRI in angle brackets. -/
theorem beside_plainToken (s : Session Memory)
    (hquote : ∀ c ∈ s.cursor.unread.head?, Quote.ofChar? c = none) :
    Beside plainToken word s (Effect s.memory) := by
  refine (beside_basicToken s hquote).bind (fun w m h => ?_) ?_
  · cases h
    exact .failed
  · rintro w token ⟨c, ctx, limit, failed, m⟩ h
    refine .onMemory_bind ?_
    cases h with
    | bracket plain =>
      cases token with
      | value v => exact absurd rfl (plain v)
      | ended => exact .pure (.bracket plain)
      | opener b => exact .pure (.bracket plain)
      | closer b => exact .pure (.bracket plain)
    | word ne_nil => exact beside_classify (.word ne_nil)

/-- A datatype is a token for an IRI, or a symbol. -/
inductive DatatypeEffect (m : Memory) : List Char → Option Iri → Memory → Prop
  | read {text : List Char} {v : Value} {m' : Memory} (token : Effect m text (some (.value v)) m')
      {i : Iri} (eq : datatypeOf? v = some i) : DatatypeEffect m text (some i) m'
  | other {text : List Char} {token? : Option Token} {m' : Memory} (token : Effect m text token? m')
      (eq : ∀ v, token? = some (.value v) → datatypeOf? v = none) : DatatypeEffect m text none m'

/-- A datatype does what its token does, and fails if that is neither an IRI nor a symbol. -/
theorem beside_datatype {token : ReadM Memory Token} {y : CursorM (List Char)} {s : Session Memory}
    (h : Beside token y s (Effect s.memory)) :
    Beside (datatype token) y s (DatatypeEffect s.memory) := by
  refine .here_bind fun p => h.bind (fun w m hm => .other hm fun _ h => nomatch h) ?_
  rintro w token ⟨c, ctx, limit, failed, m⟩ hm
  cases token with
  | ended => exact .fail (.other hm fun _ h => nomatch h)
  | opener b => exact .fail (.other hm fun _ h => nomatch h)
  | closer b => exact .fail (.other hm fun _ h => nomatch h)
  | value v =>
    -- Of all values only a symbol and the term of an IRI are taken.
    have hother (h : datatypeOf? v = none) : DatatypeEffect s.memory w none m := by
      refine .other hm ?_
      rintro _ ⟨⟩
      exact h
    cases v with
    | atom a =>
      cases a with
      | symbol name => exact .pure (.read hm rfl)
      | nil => exact .fail (hother rfl)
      | bool b => exact .fail (hother rfl)
      | char c => exact .fail (hother rfl)
      | string text quote => exact .fail (hother rfl)
      | number n => exact .fail (hother rfl)
    | list items => exact .fail (hother rfl)
    | vector items => exact .fail (hother rfl)
    | term i t =>
      cases t with
      | iri i => exact .pure (.read hm rfl)
      | literal l => exact .fail (hother rfl)
      | blank b => exact .fail (hother rfl)
      | var v => exact .fail (hother rfl)

/-- A string in quotes, whose word is that of its datatype. -/
theorem beside_quoted {datatype : ReadM Memory Iri} {y : CursorM (List Char)} {s : Session Memory}
    (h : ∀ c, Beside datatype y { s with cursor := c } (DatatypeEffect s.memory)) :
    Beside (quoted datatype) (afterQuoted y) s
      fun w v? m => Effect s.memory w (v?.map .value) m := by
  refine .onCursor_bind .failed fun r _ _ => .onCursor_bind .failed fun next _ _ => ?_
  split
  · rw [if_neg (by decide)]
    refine .onCursor_bind_left .failed fun _ _ _ => ?_
    exact .onCursor_bind_left .failed fun _ _ _ => .onMemory (.literal _)
  · rw [if_pos rfl]
    refine .here_bind fun p => .onCursor_bind .failed fun _ _ _ => ?_
    refine .onCursor_bind .failed fun c cursor _ => ?_
    split
    · refine (h cursor).bind (fun w m hm => ?_) ?_
      · cases hm with
        | other token eq => exact .untyped token eq
      · rintro w iri ⟨c, ctx, limit, failed, m⟩ hm
        cases hm with
        | read token eq => exact .onMemory (.typed token eq _)
    · exact .fail .failed
  · next hat hcaret =>
    rw [if_neg hcaret]
    exact .onMemory (.literal _)

/-- A token, whose word is looked for where the token is read. -/
theorem beside_tokenWith {datatype : ReadM Memory Iri} {y : CursorM (List Char)} {s : Session Memory}
    (h : ∀ c, Beside datatype y { s with cursor := c } (DatatypeEffect s.memory)) :
    Beside (tokenWith datatype) (wordWith y) s (Effect s.memory) := by
  have hvalue {x : ReadM Memory Value} {z : CursorM (List Char)} {u : Session Memory}
      (hx : Beside x z u fun w v? m => Effect s.memory w (v?.map .value) m) :
      Beside (do return Token.value (← x)) z u (Effect s.memory) :=
    hx.bind (fun _ _ hm => hm) fun _ _ _ hm => .pure hm
  -- Both look at the next character first, and take the same branch.
  refine .here_bind fun p => .onCursor_bind .failed fun r c hpeek => ?_
  obtain ⟨hr, hunread⟩ := Cursor.ensures_peek _ r c hpeek
  split
  · rw [if_pos (.inl rfl)]
    exact hvalue (beside_quoted h)
  · rw [if_pos (.inr rfl)]
    exact hvalue (beside_quoted h)
  · rw [if_neg (by decide), if_pos rfl]
    exact .onCursor_bind_left .failed fun _ c _ => hvalue (beside_angle p _)
  · next hdouble hsingle hangle =>
    rw [if_neg (not_or.mpr ⟨hdouble, hsingle⟩), if_neg hangle]
    refine beside_plainToken _ fun d hd => ?_
    show Quote.ofChar? d = none
    replace hd : d ∈ c.unread.head? := hd
    rw [hunread, ← hr] at hd
    obtain rfl : r = some d := hd
    have hne : d ≠ '"' ∧ d ≠ '\'' := ⟨fun h => hdouble (h ▸ rfl), fun h => hsingle (h ▸ rfl)⟩
    rw [Quote.ofChar?, if_neg hne.1, if_neg hne.2]

/-- A token, however many datatypes are inside each other. -/
theorem beside_tokenIn (allowance : List Char) (s : Session Memory) :
    Beside (tokenIn allowance) (wordIn allowance) s (Effect s.memory) := by
  -- A datatype is a token within a token, and the allowance goes down with each.
  induction allowance generalizing s with
  | nil =>
    refine beside_tokenWith fun c => beside_datatype (.pure (.bracket fun _ => Token.noConfusion))
  | cons d allowance ih => exact beside_tokenWith fun c => beside_datatype (ih { s with cursor := c })

/-- **What a token does** is told by the word that it gives a meaning to. -/
theorem token_effect (s : Session Memory) :
    Effect s.memory (spelled s) (sparql.tokenAt? s) (sparql.memoryAt s) := by
  have htoken : sparql.readToken s = tokenIn s.cursor.unread s := token_def s
  have h : Beside (tokenIn s.cursor.unread) (wordIn s.cursor.unread) s (Effect s.memory) :=
    beside_tokenIn _ s
  unfold tokenAt? memoryAt Call.leaves
  unfold Beside Call.leaves at h
  rw [htoken]
  cases hres : tokenIn s.cursor.unread s with
  | ok token u =>
    rw [hres] at h
    exact h
  | error e u =>
    rw [hres] at h
    exact h

/-- The word of a datatype is the word of the literal. -/
example : spelled (.fresh "\"x\"^^'y'^^_:z w".toList none {} 500) = "_:z".toList := by
  decide +kernel

end SExpr.Dialect.Sparql
