import SExpr.Proofs.Ensures
import SExpr.Proofs.Tracks.Structure

/-!
# Depth

Lists, vectors and quoted data are read with less room than what is around them, so no value that
is read is nested deeper than there was room for. This needs words and names to stand for values
without parts, which is up to the options of a dialect and to what it remembers.

* **`Value.depth`**: how deep lists and vectors are nested.
* **`Gives`**: what an action returns, as long as what is remembered is in order.
* **`Dialect.PlainWhile`**: when words and names stand for values without parts.
* **`Dialect.Gives.nested`**: what is nested goes no deeper than there is room.
-/

namespace SExpr

open ReadM

variable {σ α β : Type}

/-! ## Depth of values -/

namespace Value

mutual

/-- How deep lists and vectors are nested in a value. -/
def depth : Value → Nat
  | atom _ => 0
  | list items => depthAll items + 1
  | vector items => depthAll items + 1
  | term _ _ => 0

/-- How deep they are nested in any of some values. -/
def depthAll : List Value → Nat
  | [] => 0
  | v :: vs => max (depth v) (depthAll vs)

end

theorem depthAll_le_iff {vs : List Value} {k : Nat} :
    depthAll vs ≤ k ↔ ∀ v ∈ vs, v.depth ≤ k := by
  induction vs with
  | nil => simp [depthAll]
  | cons v vs ih => simp [depthAll, ih]

end Value

/-! ## What actions give -/

/-- As long as `inv` holds of the memory, it goes on to hold, and what the action returns satisfies
`post`. -/
def Gives (inv : σ → Prop) (x : ReadM σ α) (post : α → Prop) : Prop :=
  ∀ s : Session σ, inv s.memory → Ensures x s fun a u => inv u.memory ∧ post a

namespace Gives

variable {inv : σ → Prop} {post : α → Prop}

theorem mono {x : ReadM σ α} {post' : α → Prop} (hx : Gives inv x post)
    (h : ∀ a, post a → post' a) : Gives inv x post' :=
  fun s hs => (hx s hs).mono fun a _ ha => ⟨ha.1, h a ha.2⟩

theorem pure {a : α} (h : post a) : Gives inv (Pure.pure a) post :=
  fun _ hs => Ensures.pure ⟨hs, h⟩

theorem fail {cause : Cause} {p : Pos} : Gives inv (ReadM.fail cause p : ReadM σ α) post :=
  fun _ _ => ensures_fail

theorem stray {b : Bracket} {p : Pos} : Gives inv (ReadM.stray b p : ReadM σ α) post :=
  fun _ _ => ensures_stray

theorem bind {x : ReadM σ β} {f : β → ReadM σ α} {P : β → Prop} (hx : Gives inv x P)
    (hf : ∀ b, P b → Gives inv (f b) post) : Gives inv (x >>= f) post :=
  fun s hs => (hx s hs).bind fun b u hu => hf b hu.2 u hu.1

/-- What the action returns from any cursor is what it returns in a session; the memory is not
touched. -/
theorem onCursor {x : CursorM α} (hx : ∀ c, Ensures x c fun a _ => post a) :
    Gives inv (ReadM.onCursor x : ReadM σ α) post := by
  intro s hs
  refine (ensures_onCursor (hx s.cursor)).mono fun a u hu => ?_
  rw [hu.1]
  exact ⟨hs, hu.2⟩

/-- What is read off the text, whatever that is. -/
theorem onCursor_bind {x : CursorM β} {f : β → ReadM σ α} (hf : ∀ b, Gives inv (f b) post) :
    Gives inv (ReadM.onCursor x >>= f) post := by
  have hx : Gives inv (ReadM.onCursor x : ReadM σ β) fun _ => True :=
    onCursor fun _ _ _ _ => trivial
  exact hx.bind fun b _ => hf b

/-- An action on the memory has to keep the invariant by itself. -/
theorem onMemory {f : σ → α × σ} (hf : ∀ m, inv m → inv (f m).2 ∧ post (f m).1) :
    Gives inv (ReadM.onMemory f) post := by
  intro s hs a u h
  cases h
  exact hf s.memory hs

theorem within {x : ReadM σ α} (hx : Gives inv x post) (frame : Frame) :
    Gives inv (ReadM.within frame x) post :=
  fun s hs => ensures_within (hx { s with context := frame :: s.context } hs)

/-- A loop gives what its last round gives, if the other rounds keep what is handed on in order. -/
theorem loop {step : β → ReadM σ (β ⊕ α)} {P : β → Prop}
    (hstep : ∀ b, P b → Gives inv (step b) fun
      | .inl b' => P b'
      | .inr a => post a)
    {b : β} (hb : P b) : Gives inv (ReadM.loop step b) post := by
  intro s hs
  refine Ensures.loop (fun b u => inv u.memory ∧ P b) (fun _ _ _ => stuck_ne_ok)
    (fun b u hu => ?_) ⟨hs, hb⟩
  refine (hstep b hu.2 u hu.1).mono fun r u' hu' => ?_
  cases r with
  | inl b' => exact hu'
  | inr a => exact hu'

end Gives

/-- What is nested has at most so much room, and its values go one level less deep. -/
structure Nested.Gives (inv : σ → Prop) (room : Nat) (n : Nested σ) : Prop where
  datum : ∀ p, SExpr.Gives inv (n.datum p) fun v => v.depth < room
  items : ∀ b p, SExpr.Gives inv (n.items b p) fun vs => Value.depthAll vs < room

/-- A token that is a value goes at most so deep. -/
def Token.Within (room : Nat) : Token → Prop
  | .value v => v.depth ≤ room
  | _ => True

/-- An item that is a value goes at most so deep. -/
def Dialect.Item.Within (room : Nat) : Dialect.Item → Prop
  | .value v => v.depth ≤ room
  | _ => True

/-- Tokens go no deeper than what is nested in them, as long as `inv` holds of the memory. -/
structure Dialect.Gives (inv : σ → Prop) (d : Dialect σ) : Prop where
  trivia : ∀ {n room}, Nested.Gives inv room n → SExpr.Gives inv (d.trivia n) fun _ => True
  token : ∀ {n room}, Nested.Gives inv room n → SExpr.Gives inv (d.token n) (Token.Within room)

/-! ## Tokens -/

/-- A word of the plain dialects stands for an atom. -/
theorem plainAtom_gives {inv : σ → Prop} (text : List Char) (p : Pos) :
    Gives inv (plainAtom text p) fun v => v.depth = 0 := by
  unfold plainAtom
  split
  · exact .pure rfl
  · exact .fail

namespace Lexicon

theorem character_gives {inv : σ → Prop} (l : Lexicon σ) :
    Gives inv (l.character : ReadM σ Value) fun v => v.depth = 0 :=
  .onCursor fun _ =>
    Ensures.bind (P := fun _ _ => True) (fun _ _ _ => trivial) fun _ _ _ => .pure rfl

theorem radixInteger_gives {inv : σ → Prop} (l : Lexicon σ) (radix : Nat) :
    Gives inv (l.radixInteger radix : ReadM σ Value) fun v => v.depth = 0 :=
  .onCursor fun _ =>
    Ensures.bind (P := fun _ _ => True) (fun _ _ _ => trivial) fun _ _ _ => .pure rfl

/-- A token is a bracket, an end or a value without parts, if words stand for such values. -/
theorem basicToken_gives {inv : σ → Prop} {l : Lexicon σ}
    (hatom : ∀ text p, Gives inv (l.atom text p) fun v => v.depth = 0) (room : Nat) :
    Gives inv l.basicToken (Token.Within room) := by
  have hvalue (text : List Char) (p : Pos) :
      Gives inv (do return Token.value (← l.atom text p)) (Token.Within room) := by
    refine (hatom text p).bind fun v hv => .pure ?_
    show v.depth ≤ room
    omega
  -- The cases are those of the reader: the end, a bracket, a quoted text, and a word, which may
  -- begin with an escape.
  refine .onCursor_bind fun p => .onCursor_bind fun r => ?_
  split
  · exact .pure trivial
  · next c =>
    split
    · next token htoken =>
      refine .onCursor_bind fun _ => .pure ?_
      cases token with
      | value v => exact absurd rfl (bracketToken?_ne_value htoken v)
      | ended => trivial
      | opener b => trivial
      | closer b => trivial
    · split
      · exact .onCursor_bind fun _ => .pure (Nat.zero_le room)
      · refine .onCursor_bind fun text => ?_
        split
        · exact .onCursor_bind fun c => hvalue [c] p
        · exact hvalue _ p

end Lexicon

namespace Dialect

namespace Scheme

variable {inv : Unit → Prop} {n : Nested Unit} {room : Nat}

theorem trivia_gives (hn : n.Gives inv room) : SExpr.Gives inv (trivia n) fun _ => True := by
  refine SExpr.Gives.loop (P := fun _ => True) (fun u _ => ?_) trivial
  suffices hround : SExpr.Gives inv (triviaRound n u) fun _ => True from
    hround.mono fun r _ => by cases r <;> trivial
  refine .onCursor_bind fun _ => .onCursor_bind fun r => ?_
  split
  · refine .onCursor_bind fun p => .onCursor_bind fun _ => .onCursor_bind fun r => ?_
    split
    · exact .onCursor_bind fun _ => (hn.datum p).bind fun _ _ => .pure trivial
    · exact .onCursor_bind fun _ => .pure trivial
    · exact .onCursor_bind fun _ => .pure trivial
  · exact .pure trivial

/-- The words after a sharp sign stand for atoms. -/
theorem word?_depth {text : List Char} {v : Value} (h : word? text = some v) : v.depth = 0 := by
  unfold word? at h
  simp only at h
  split at h
  · cases h
    rfl
  · split at h
    · cases h
      rfl
    · split at h
      · cases h
        rfl
      · cases h

/-- What follows a sharp sign is an atom, or a failure. -/
theorem sharp_gives (p : Pos) : SExpr.Gives inv (sharp p) fun v => v.depth = 0 := by
  refine .onCursor_bind fun r => ?_
  split
  · exact .onCursor_bind fun _ => .fail
  · split
    · exact .onCursor_bind fun _ => Lexicon.character_gives _
    · split
      · exact .onCursor_bind fun _ => Lexicon.radixInteger_gives _ _
      · split
        · refine .onCursor_bind fun text => ?_
          split
          · next hword => exact .pure (word?_depth hword)
          · exact .fail
        · exact .fail

/-- A token nests nothing: vectors come as lists after a mark. -/
theorem token_gives (room : Nat) : SExpr.Gives inv token (Token.Within room) := by
  refine .onCursor_bind fun r => ?_
  split
  · refine .onCursor_bind fun p => .onCursor_bind fun _ => (sharp_gives p).bind fun v hv => .pure ?_
    show v.depth ≤ room
    omega
  · exact Lexicon.basicToken_gives plainAtom_gives room

end Scheme

namespace CommonLisp

variable {options : Options} {inv : Unit → Prop} {n : Nested Unit} {room : Nat}

/-- A datum after a mark makes a list of two, with the datum one level down. -/
theorem marked_gives (hn : n.Gives inv room) (head : String) (p : Pos) :
    SExpr.Gives inv (marked n head p) fun v => v.depth ≤ room := by
  refine (hn.datum p).bind fun v hv => .pure ?_
  show max 0 (max v.depth 0) + 1 ≤ room
  omega

/-- What follows a sharp sign has parts if it is a vector or a function, and these go one level
down. -/
theorem sharp_gives (hn : n.Gives inv room) (p : Pos) :
    SExpr.Gives inv (sharp options n p) fun v => v.depth ≤ room := by
  have hflat {x : ReadM Unit Value} (hx : SExpr.Gives inv x fun v => v.depth = 0) :
      SExpr.Gives inv x fun v => v.depth ≤ room := by
    apply hx.mono
    intro v hv
    omega
  refine .onCursor_bind fun c => ?_
  split
  · exact hflat (Lexicon.radixInteger_gives _ _)
  · split
    · exact hflat (Lexicon.radixInteger_gives _ _)
    · split
      · exact hflat (Lexicon.radixInteger_gives _ _)
      · split
        · exact hflat (Lexicon.character_gives _)
        · split
          · exact (hn.items .round p).bind fun vs hvs => .pure hvs
          · split
            · exact marked_gives hn options.function p
            · exact .fail

/-- A word stands for a value without parts if the two values of the options are such. -/
theorem atom_gives (hnil : options.nil.depth = 0) (ht : options.t.depth = 0) (text : List Char)
    (p : Pos) : SExpr.Gives inv (atom options text p) fun v => v.depth = 0 := by
  unfold atom
  split
  · exact .pure ht
  · split
    · exact .pure hnil
    · exact plainAtom_gives text p

/-- A token goes no deeper than there is room, if what is nested in it goes less deep. -/
theorem token_gives (hnil : options.nil.depth = 0) (ht : options.t.depth = 0)
    (hn : n.Gives inv room) : SExpr.Gives inv (token options n) (Token.Within room) := by
  refine .onCursor_bind fun p => .onCursor_bind fun r => ?_
  split
  · exact .onCursor_bind fun _ => (sharp_gives hn p).bind fun v hv => .pure hv
  · exact .onCursor_bind fun _ => .onCursor_bind fun _ => .pure (Nat.zero_le room)
  · exact .onCursor_bind fun _ => (marked_gives hn options.quote p).bind fun v hv => .pure hv
  · exact Lexicon.basicToken_gives (atom_gives hnil ht) room

end CommonLisp

namespace Sparql

/-- The names that are remembered stand for values without parts. -/
structure Memory.Plain (m : Memory) : Prop where
  blanks : ∀ id v, m.blanks.lookup id = some v → v.depth = 0
  vars : ∀ name v, m.vars.lookup name = some v → v.depth = 0

/-- As long as names stand for values without parts, they go on to do so, and the value that is
returned has no parts. -/
def Plainly (x : Remembering Value) : Prop :=
  ∀ m : Memory, m.Plain → (x m).2.Plain ∧ (x m).1.depth = 0

theorem mention_plainly (t : Term) : Plainly (mention t) := fun _ hm => ⟨⟨hm.blanks, hm.vars⟩, rfl⟩

/-- A new blank node is remembered as a term, and the others are left alone. -/
theorem blankNode_plainly (id : String) : Plainly (blankNode id) := by
  intro m hm
  unfold blankNode
  split
  · exact ⟨⟨hm.blanks, hm.vars⟩, rfl⟩
  · cases hlookup : m.blanks.lookup id with
    | some v => exact ⟨hm, hm.blanks id v hlookup⟩
    | none =>
      refine ⟨⟨fun id' v hv => ?_, hm.vars⟩, rfl⟩
      simp only [mention, List.lookup_cons] at hv
      split at hv
      · cases hv
        rfl
      · exact hm.blanks id' v hv

/-- A new variable is remembered as a term, and the others are left alone. -/
theorem namedVariable_plainly (v : Variable) : Plainly (namedVariable v) := by
  intro m hm
  unfold namedVariable
  split
  · exact ⟨⟨hm.blanks, hm.vars⟩, rfl⟩
  · cases hlookup : m.vars.lookup v.name with
    | some u => exact ⟨hm, hm.vars v.name u hlookup⟩
    | none =>
      refine ⟨⟨hm.blanks, fun name u hu => ?_⟩, rfl⟩
      simp only [mention, List.lookup_cons] at hu
      split at hu
      · cases hu
        rfl
      · exact hm.vars name u hu

/-- An IRI may become the base or a prefix, but no name is remembered for it. -/
theorem iri_plainly (raw : List Char) : Plainly (iri raw) := by
  intro m hm
  have hsame : (iri raw m).2.blanks = m.blanks ∧ (iri raw m).2.vars = m.vars := by
    obtain ⟨_, _, _, _, _, awaitedName, awaitsBase, _, _⟩ := m
    cases awaitsBase <;> cases awaitedName <;> exact ⟨rfl, rfl⟩
  refine ⟨⟨?_, ?_⟩, rfl⟩
  · rw [hsame.1]
    exact hm.blanks
  · rw [hsame.2]
    exact hm.vars

/-- A symbol may open a form or be a name with a prefix; neither is remembered. -/
theorem symbol_plainly (cs : List Char) : Plainly (symbol cs) := by
  intro m hm
  unfold symbol
  simp only
  split
  · exact ⟨⟨hm.blanks, hm.vars⟩, rfl⟩
  · split
    · exact ⟨⟨hm.blanks, hm.vars⟩, rfl⟩
    · split
      · exact ⟨hm, rfl⟩
      · split
        · exact ⟨hm, rfl⟩
        · exact mention_plainly _ m hm

/-- A word stands for a value without parts, whatever its case. -/
theorem atom_plainly (text : List Char) : Plainly (atom text) := by
  intro m hm
  unfold atom
  simp only
  repeat' split
  -- Most cases leave the names alone. The rest are terms, old or new.
  all_goals first
    | exact ⟨⟨hm.blanks, hm.vars⟩, rfl⟩
    | exact mention_plainly _ m hm
    | exact blankNode_plainly _ m hm
    | exact namedVariable_plainly _ m hm

variable {room : Nat}

theorem plainly_gives {x : Remembering Value} (hx : Plainly x) :
    SExpr.Gives Memory.Plain (ReadM.onMemory x) fun v => v.depth = 0 := .onMemory hx

theorem angle_gives (p : Pos) : SExpr.Gives Memory.Plain (angle p) fun v => v.depth = 0 := by
  refine .onCursor_bind fun r => ?_
  split
  · exact .pure rfl
  · split
    · exact .pure rfl
    · split
      · exact .onCursor_bind fun _ => .pure rfl
      · exact .onCursor_bind fun raw => plainly_gives (iri_plainly raw)

/-- A datatype is a token, of which only the IRI is kept. -/
theorem datatype_gives {x : ReadM Memory Token}
    (hx : SExpr.Gives Memory.Plain x (Token.Within room)) :
    SExpr.Gives Memory.Plain (datatype x) fun _ => True := by
  refine .onCursor_bind fun p => hx.bind fun token _ => ?_
  split
  · exact .fail
  · exact .fail
  · exact .fail
  · split
    · exact .pure trivial
    · exact .pure trivial
    · exact .fail

/-- A literal has no parts, whether a tag or a datatype follows it. -/
theorem quoted_gives {x : ReadM Memory Iri} (hx : SExpr.Gives Memory.Plain x fun _ => True) :
    SExpr.Gives Memory.Plain (quoted x) fun v => v.depth = 0 := by
  refine .onCursor_bind fun r => .onCursor_bind fun next => ?_
  split
  · exact .onCursor_bind fun _ => .onCursor_bind fun _ => plainly_gives (mention_plainly _)
  · refine .onCursor_bind fun _ => .onCursor_bind fun _ => .onCursor_bind fun _ => ?_
    split
    · exact hx.bind fun _ _ => plainly_gives (mention_plainly _)
    · exact .fail
  · exact plainly_gives (mention_plainly _)

/-- A token goes no deeper than there is room, as long as its datatype can be read. -/
theorem tokenWith_gives {x : ReadM Memory Iri} (hx : SExpr.Gives Memory.Plain x fun _ => True) :
    SExpr.Gives Memory.Plain (tokenWith x) (Token.Within room) := by
  -- Each value among the tokens is one without parts.
  have hvalue {y : ReadM Memory Value} (hy : SExpr.Gives Memory.Plain y fun v => v.depth = 0) :
      SExpr.Gives Memory.Plain (do return Token.value (← y)) (Token.Within room) := by
    refine hy.bind fun v hv => .pure ?_
    show v.depth ≤ room
    omega
  refine .onCursor_bind fun p => .onCursor_bind fun r => ?_
  split
  · exact hvalue (quoted_gives hx)
  · exact hvalue (quoted_gives hx)
  · exact .onCursor_bind fun _ => hvalue (angle_gives p)
  · refine (Lexicon.basicToken_gives (fun text _ => plainly_gives (atom_plainly text)) room).bind
      fun token htoken => ?_
    refine SExpr.Gives.bind (P := fun _ => True) (.onMemory fun m hm => ⟨?_, trivial⟩)
      fun _ _ => ?_
    · cases token <;> exact ⟨hm.blanks, hm.vars⟩
    · split
      · exact hvalue (plainly_gives (symbol_plainly _))
      · exact .pure htoken

/-- Within a datatype there may be another literal, as often as there are characters to read. -/
theorem tokenIn_gives {γ : Type} (xs : List γ) :
    SExpr.Gives Memory.Plain (tokenIn xs) (Token.Within room) := by
  induction xs with
  | nil =>
    have hended : SExpr.Gives Memory.Plain (pure .ended) (Token.Within room) := .pure trivial
    exact tokenWith_gives (datatype_gives hended)
  | cons x xs ih => exact tokenWith_gives (datatype_gives ih)

theorem token_gives (room : Nat) : SExpr.Gives Memory.Plain token (Token.Within room) :=
  fun s hs => tokenIn_gives s.cursor.located s hs

end Sparql

/-- As long as `inv` holds of the memory, the words and names of the dialect stand for values
without parts. -/
inductive PlainWhile : {σ : Type} → Dialect σ → (σ → Prop) → Prop where
  | basic : PlainWhile basic fun _ => True
  | extended : PlainWhile extended fun _ => True
  | scheme : PlainWhile scheme fun _ => True
  | commonLisp (options : CommonLisp.Options) (nil : options.nil.depth = 0)
      (t : options.t.depth = 0) : PlainWhile (commonLisp options) fun _ => True
  | sparql : PlainWhile sparql Sparql.Memory.Plain

/-- The dialects give what is nested in order, each as its options and its memory allow. -/
theorem PlainWhile.gives {d : Dialect σ} {inv : σ → Prop} (hd : d.PlainWhile inv) :
    d.Gives inv := by
  have hskip {σ : Type} {inv : σ → Prop} {x : CursorM Unit} :
      SExpr.Gives inv (ReadM.onCursor x : ReadM σ Unit) fun _ => True :=
    .onCursor fun _ _ _ _ => trivial
  cases hd with
  | basic => exact ⟨fun _ => hskip, fun _ => Lexicon.basicToken_gives plainAtom_gives _⟩
  | extended => exact ⟨fun _ => hskip, fun _ => Lexicon.basicToken_gives plainAtom_gives _⟩
  | scheme => exact ⟨Scheme.trivia_gives, fun _ => Scheme.token_gives _⟩
  | commonLisp options hnil ht => exact ⟨fun _ => hskip, CommonLisp.token_gives hnil ht⟩
  | sparql => exact ⟨fun _ => hskip, fun _ => Sparql.token_gives _⟩

/-! ## Values -/

namespace Gives

variable {d : Dialect σ} {inv : σ → Prop} {n : Nested σ} {room : Nat}

/-- An item is a value no deeper than there is room, or none. -/
theorem item (hd : d.Gives inv) (hn : n.Gives inv room) :
    SExpr.Gives inv (d.item n) (Item.Within room) := by
  refine (hd.trivia hn).bind fun _ _ => .onCursor_bind fun p => ?_
  refine (hd.token hn).bind fun token htoken => ?_
  cases token with
  | ended => exact .pure trivial
  | opener b => exact (hn.items b p).bind fun vs hvs => .pure hvs
  | closer b => exact .pure trivial
  | value v => exact .pure htoken

theorem value (hd : d.Gives inv) (hn : n.Gives inv room) :
    SExpr.Gives inv (d.value n) fun v => v.depth ≤ room := by
  refine (hd.item hn).bind fun item hitem => ?_
  cases item with
  | value v => exact .pure hitem
  | closer b p => exact .stray
  | ended p => exact .fail

/-- The items of a list are no deeper than there is room. -/
theorem items (hd : d.Gives inv) (hn : n.Gives inv room) (b : Bracket) (start : Pos) :
    SExpr.Gives inv (d.items n b start) fun vs => Value.depthAll vs ≤ room := by
  -- The invariant: the values taken so far are no deeper than there is room.
  refine SExpr.Gives.loop (P := fun taken => Value.depthAll taken ≤ room)
    (fun taken htaken => (hd.item hn).bind fun item hitem => ?_) (Nat.zero_le room)
  cases item with
  | value v => exact .pure (Nat.max_le.mpr ⟨hitem, htaken⟩)
  | ended p => exact .fail
  | closer got p =>
    simp only
    split
    · refine .pure (Value.depthAll_le_iff.mpr fun v hv => ?_)
      exact Value.depthAll_le_iff.mp htaken v (List.mem_reverse.mp hv)
    · exact .stray

/-- A round of reading all values adds a value to those taken, or ends. -/
theorem collect (hd : d.Gives inv) (hn : n.Gives inv room) {taken : List Value}
    (htaken : ∀ v ∈ taken, v.depth ≤ room) :
    SExpr.Gives inv (d.item n >>= Dialect.collect taken) fun
      | .inl taken' => ∀ v ∈ taken', v.depth ≤ room
      | .inr vs => ∀ v ∈ vs, v.depth ≤ room := by
  refine (hd.item hn).bind fun item hitem => ?_
  cases item with
  | value v => exact .pure (List.forall_mem_cons.mpr ⟨hitem, htaken⟩)
  | closer b p => exact .stray
  | ended p => exact .pure fun v hv => htaken v (List.mem_reverse.mp hv)

/-- A value that need not be there goes no deeper than there is room. -/
theorem optional (hd : d.Gives inv) (hn : n.Gives inv room) :
    SExpr.Gives inv (d.item n >>= Tracked.optional) fun r => ∀ v ∈ r, v.depth ≤ room := by
  refine (hd.item hn).bind fun item hitem => ?_
  cases item with
  | value v =>
    refine .pure fun w hw => ?_
    cases hw
    exact hitem
  | closer b p => exact .stray
  | ended p => exact .pure nofun

/-- **What is nested** goes no deeper than there is room. -/
theorem nested (hd : d.Gives inv) (room : Nat) : (d.nested room).Gives inv room := by
  induction room with
  | zero => exact ⟨fun _ => .fail, fun _ _ => .fail⟩
  | succ room ih =>
    constructor
    · intro start
      exact ((hd.value ih).within .mark).mono fun v hv => Nat.lt_succ_of_le hv
    · intro b start
      exact ((hd.items ih b start).within (.list b)).mono fun vs hvs => Nat.lt_succ_of_le hvs

end Gives

end Dialect

end SExpr
