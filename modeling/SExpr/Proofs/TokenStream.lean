import SExpr.Proofs.Surroundings

/-!
# Structure without recursion

In some dialects nothing is nested in tokens, so that a text is a flat stream of tokens. Its values
can then be found with a stack of open lists: an opening bracket pushes a list, a closing bracket
completes the innermost one, and any other value goes to the innermost list or to the document.

* **`Dialect.tokens`**: the stream of tokens, each with the session after it.
* **`Stack.run`**: the stack machine.
* **`Dialect.readAll_eq_run`**: it does what the recursive reader does.
-/

namespace SExpr

/-! ## Streams of tokens -/

/-- Tokens up to the end of the text or to a failure. Each comes with the session after it, and a
bracket with its place. -/
inductive TokenStream (σ : Type) where
  | ended (s : Session σ)
  | failed (e : Failure) (s : Session σ)
  | opener (bracket : Bracket) (p : Pos) (s : Session σ) (rest : TokenStream σ)
  | closer (bracket : Bracket) (p : Pos) (s : Session σ) (rest : TokenStream σ)
  | value (v : Value) (s : Session σ) (rest : TokenStream σ)

/-- A token before others; after the end there are none. -/
def TokenStream.cons {σ : Type} :
    Token → Pos → Session σ → TokenStream σ → TokenStream σ
  | .ended, _, s, _ => .ended s
  | .opener b, p, s, rest => .opener b p s rest
  | .closer b, p, s, rest => .closer b p s rest
  | .value v, _, s, rest => .value v s rest

namespace Dialect

variable {σ : Type}

/-- The next token and its place, after what may stand before it. -/
def nextToken (d : Dialect σ) : ReadM σ (Token × Pos) := do
  d.skipTrivia
  let p ← Cursor.here
  return (← d.readToken, p)

/-- So many tokens at most, and one more to see the end. -/
def tokensIn (d : Dialect σ) : List Char → Session σ → TokenStream σ
  | allowance, s =>
    match d.nextToken s with
    | .error e s => .failed e s
    | .ok (token, p) s => .cons token p s <|
      match allowance with
      | [] => .ended s
      | _ :: allowance => d.tokensIn allowance s

/-- The tokens of the text that is left. A token takes a character, so there are no more of them. -/
def tokens (d : Dialect σ) (s : Session σ) : TokenStream σ := d.tokensIn s.cursor.unread s

variable {d : Dialect σ} {fault : Option Fault} {p place : Pos} {cs xs ys : List Char}
  {s s' : Session σ} {token : Token}

/-- A token takes a character, if it is not the end. -/
theorem Tracked.nextToken (hd : d.Tracked) :
    Tracks d.isAtomChar { cut := fault } p [] cs d.nextToken d.nextToken (fun _ _ => False)
      fun r rest => r.1 ≠ .ended → rest.length < cs.length := by
  have htrivia : Tracks d.isAtomChar { cut := fault } p [] cs d.skipTrivia d.skipTrivia _ _ :=
    hd.withRoom fun n hn => hd.trivia hn p cs
  refine htrivia.seq (F := fun _ mid r rest => r.1 ≠ .ended → rest.length < mid.length)
    (fun _ front mid _ _ => .here ?_) (fun _ mid r rest _ hmid _ h hr => ?_)
    fun _ _ _ _ _ _ _ h => h.elim
  · have htoken : Tracks d.isAtomChar { cut := fault } (p.advanceAll front) [] mid d.readToken
        d.readToken _ _ := hd.withRoom fun n hn => hd.token hn _ mid
    refine htoken.seq (F := fun token rest r rest' => r.1 = token ∧ rest' = rest)
      (fun _ _ _ _ _ => .pure ⟨rfl, rfl⟩) (fun token rest r rest' htaken _ _ h => ?_)
      fun _ _ _ _ _ _ _ h => h.elim
    obtain ⟨rfl, rfl⟩ := h
    exact htaken.length_lt
  · exact (h hr).trans_le hmid.length_le

/-- Where a token leaves off. -/
theorem nextToken_of_ok (hd : d.Tracked) (hs : s.cursor.At d.isAtomChar p cs fault)
    (h : d.nextToken s = .ok (token, place) s') :
    ∃ p' rest, s'.cursor.At d.isAtomChar p' rest fault ∧
      (token ≠ .ended → rest.length < cs.length) := by
  obtain ⟨front, rest, -, hs', hlt⟩ := hd.nextToken.of_ok hs h
  exact ⟨_, rest, hs', hlt⟩

/-- The stream begins with the token that is read first. -/
theorem tokensIn_of_ok (xs : List Char) (h : d.nextToken s = .ok (token, place) s') :
    d.tokensIn xs s = .cons token place s' (match xs with
      | [] => .ended s'
      | _ :: xs => d.tokensIn xs s') := by
  conv => lhs; unfold tokensIn
  rw [h]

theorem tokensIn_of_error (xs : List Char) {e : Failure} (h : d.nextToken s = .error e s') :
    d.tokensIn xs s = .failed e s' := by
  unfold tokensIn
  rw [h]

/-- The allowance does not matter if it suffices. -/
theorem tokensIn_of_length_le (hd : d.Tracked) (hs : s.cursor.At d.isAtomChar p cs fault)
    (hxs : cs.length ≤ xs.length) (hys : cs.length ≤ ys.length) :
    d.tokensIn xs s = d.tokensIn ys s := by
  induction xs generalizing ys s p cs with
  | nil =>
    obtain rfl := List.length_eq_zero_iff.mp (Nat.le_zero.mp hxs)
    cases h : d.nextToken s with
    | error e s' => rw [tokensIn_of_error _ h, tokensIn_of_error _ h]
    | ok r s' =>
      obtain ⟨token, place⟩ := r
      obtain ⟨p', rest, hs', hlt⟩ := nextToken_of_ok hd hs h
      obtain rfl : token = .ended := by
        by_contra htoken
        exact absurd (hlt htoken) (Nat.not_lt_zero _)
      rw [tokensIn_of_ok _ h, tokensIn_of_ok _ h]
      rfl
  | cons x xs ih =>
    cases h : d.nextToken s with
    | error e s' => rw [tokensIn_of_error _ h, tokensIn_of_error _ h]
    | ok r s' =>
      obtain ⟨token, place⟩ := r
      obtain ⟨p', rest, hs', hlt⟩ := nextToken_of_ok hd hs h
      rw [tokensIn_of_ok _ h, tokensIn_of_ok _ h]
      by_cases hended : token = .ended
      · subst hended
        rfl
      · -- The token has taken a character, so neither allowance is used up.
        have hlt := hlt hended
        obtain ⟨y, ys, rfl⟩ := List.exists_cons_of_length_pos ((Nat.zero_lt_of_lt hlt).trans_le hys)
        simp only [List.length_cons] at hxs hys
        exact congrArg (TokenStream.cons token place s') (ih hs' (by omega) (by omega))

theorem tokens_of_error {e : Failure} (h : d.nextToken s = .error e s') :
    d.tokens s = .failed e s' := tokensIn_of_error _ h

/-- **A stream** is a token and the stream from there. -/
theorem tokens_of_ok (hd : d.Tracked) (hs : s.cursor.At d.isAtomChar p cs fault)
    (h : d.nextToken s = .ok (token, place) s') :
    d.tokens s = .cons token place s' (d.tokens s') := by
  obtain ⟨p', rest, hs', hlt⟩ := nextToken_of_ok hd hs h
  rw [tokens, tokensIn_of_ok _ h]
  by_cases hended : token = .ended
  · subst hended
    rfl
  · have hlt := hlt hended
    rw [hs.unread]
    cases cs with
    | nil => simp at hlt
    | cons c cs =>
      simp only [List.length_cons] at hlt
      refine congrArg (TokenStream.cons token place s') ?_
      exact tokensIn_of_length_le hd hs' (by omega) (by rw [hs'.unread])

end Dialect

/-! ## The stack machine -/

/-- A list that is open: its bracket, the place of that, and its items so far in reverse. -/
structure OpenList where
  bracket : Bracket
  start : Pos
  taken : List Value := []

/-- The open lists, the innermost one first, and the values of the document in reverse. -/
structure Stack where
  lists : List OpenList := []
  values : List Value := []

namespace Stack

/-- A value goes to the innermost open list, or else to the document. -/
def add (v : Value) : Stack → Stack
  | ⟨[], values⟩ => ⟨[], v :: values⟩
  | ⟨l :: ls, values⟩ => ⟨{ l with taken := v :: l.taken } :: ls, values⟩

/-- Runs through a stream, with room for so many open lists. -/
def run {σ : Type} (limit : Nat) :
    TokenStream σ → Stack → EStateM.Result Failure (Session σ) (List Value)
  | .failed e s, _ => .error e s
  | .ended s, ⟨[], values⟩ => .ok values.reverse s
  | .ended s, ⟨l :: _, _⟩ => .error ⟨.endOfInput (.close l.bracket), l.start⟩ s
  | .value v _ rest, stack => run limit rest (stack.add v)
  | .opener b p s rest, ⟨ls, values⟩ =>
    if ls.length < limit then run limit rest ⟨{ bracket := b, start := p } :: ls, values⟩
    else .error ⟨.tooDeep, p⟩ s
  | .closer b p s _, ⟨[], _⟩ => .error ⟨.strayCloser none b, p⟩ s
  | .closer b p s rest, ⟨l :: ls, values⟩ =>
    if b = l.bracket then run limit rest (add (.list l.taken.reverse) ⟨ls, values⟩)
    else .error ⟨.strayCloser (some l.bracket) b, p⟩ s

end Stack

/-! ## Flat dialects -/

namespace Dialect

/-- The dialects in which nothing is nested in tokens. -/
inductive Flat : {σ : Type} → Dialect σ → Prop where
  | basic : Flat basic
  | extended : Flat extended
  | sparql : Flat sparql

variable {σ : Type} {d : Dialect σ}

theorem Flat.known : d.Flat → d.Known
  | .basic => .basic
  | .extended => .extended
  | .sparql => .sparql

/-- What comes before a token of a flat dialect does not depend on what is nested. -/
theorem Flat.trivia_eq (hd : d.Flat) (n n' : Nested σ) : d.trivia n = d.trivia n' := by
  cases hd <;> rfl

theorem Flat.token_eq (hd : d.Flat) (n n' : Nested σ) : d.token n = d.token n' := by
  cases hd <;> rfl

theorem Flat.trivia_local (hd : d.Flat) (n : Nested σ) : Local (d.trivia n) := by
  cases hd with
  | basic => exact .onCursor _
  | extended => exact .onCursor _
  | sparql => exact .onCursor _

theorem Flat.token_local (hd : d.Flat) (n : Nested σ) : Local (d.token n) := by
  cases hd with
  | basic => exact Lexicon.basicToken_local plainAtom_local
  | extended => exact Lexicon.basicToken_local plainAtom_local
  | sparql => exact Sparql.token_local

/-- The next token of a flat dialect, whatever reads what is nested. -/
theorem Flat.nextToken_eq (hd : d.Flat) (n : Nested σ) :
    d.nextToken = (do
      d.trivia n
      let p ← Cursor.here
      return (← d.token n, p)) := by
  have htrivia : d.skipTrivia = d.trivia n := funext fun s => congrFun (hd.trivia_eq _ n) s
  have htoken : d.readToken = d.token n := funext fun s => congrFun (hd.token_eq _ n) s
  rw [nextToken, htrivia, htoken]

theorem Flat.nextToken_local (hd : d.Flat) : Local d.nextToken := by
  rw [hd.nextToken_eq (d.nested 0)]
  exact .bind (hd.trivia_local _) fun _ => .bind (.onCursor _) fun p =>
    .bind (hd.token_local _) fun _ => .pure _

/-- What is made of a token and its place. -/
def afterToken {α : Type} (n : Nested σ) (f : Item → ReadM σ α) : Token × Pos → ReadM σ α
  | (.ended, p) => f (.ended p)
  | (.opener b, p) => n.items b p >>= fun vs => f (.value (.list vs))
  | (.closer b, p) => f (.closer b p)
  | (.value v, _) => f (.value v)

/-- An item is told from the next token. -/
theorem Flat.item_bind {α : Type} (hd : d.Flat) (n : Nested σ) (f : Item → ReadM σ α) :
    d.item n >>= f = d.nextToken >>= afterToken n f := by
  rw [hd.nextToken_eq n, Dialect.item_bind]
  simp only [bind_assoc, pure_bind]
  congr 1; funext _
  congr 1; funext p
  congr 1; funext token
  cases token <;> rfl

end Dialect

/-! ## Open lists around a session -/

namespace Session

variable {σ α : Type} {x : ReadM σ α} {s s' : Session σ}

/-- The session, where the given lists are open. -/
def inside (ls : List OpenList) (s : Session σ) : Session σ :=
  { s with context := ls.map (.list ·.bracket) }

theorem inside_nil (hs : s.context = []) : s.inside [] = s := by
  rw [inside, List.map_nil, ← hs]

end Session

namespace Local

variable {σ α : Type} {x : ReadM σ α} {s s' : Session σ}

/-- A token that is read alone is read within any lists. -/
theorem inside_of_ok {a : α} (hx : Local x) (ls : List OpenList) (h : x s = .ok a s') :
    x (s.inside ls) = .ok a (s'.inside ls) := by
  have hinside := hx (s.inside ls) s
  rw [h] at hinside
  rw [(Keeps.of_local hx).eq_moved_of_ok h]
  exact hinside

/-- A token that cannot be read alone cannot be read within any lists. -/
theorem inside_of_error {e : Failure} (hx : Local x) (ls : List OpenList)
    (h : x s = .error e s') : x (s.inside ls) = .error e (s'.inside ls) := by
  have hinside := hx (s.inside ls) s
  rw [h] at hinside
  rw [(Keeps.of_local hx).eq_moved_of_error h]
  exact hinside

end Local

/-! ## The reader with lists around it -/

theorem ReadM.within_congr {σ α : Type} {frame : Frame} {x y : ReadM σ α} {s u : Session σ}
    (h : x { s with context := frame :: s.context } = y { u with context := frame :: u.context }) :
    within frame x s = within frame y u := by
  unfold within
  rw [h]

namespace Dialect

open HasCursor

variable {σ : Type} {d : Dialect σ} {n : Nested σ} {limit : Nat} {fault : Option Fault}
  {p place : Pos} {cs : List Char} {s s' : Session σ} {l : OpenList} {ls : List OpenList}
  {values vs : List Value} {b : Bracket} {e : Failure}

/-- An item of a list begins with the next token of the stream. -/
theorem Flat.item_bind_of_ok {α : Type} {f : Item → ReadM σ α} {r : Token × Pos} (hd : d.Flat)
    (ls : List OpenList) (h : d.nextToken s = .ok r s') :
    (d.item n >>= f) (s.inside ls) = afterToken n f r (s'.inside ls) := by
  rw [hd.item_bind]
  exact bind_of_ok (hd.nextToken_local.inside_of_ok ls h)

/-- A list breaks off where the stream does. -/
theorem Flat.item_bind_of_error {α : Type} {f : Item → ReadM σ α} (hd : d.Flat)
    (ls : List OpenList) (h : d.nextToken s = .error e s') :
    (d.item n >>= f) (s.inside ls) = .error e (s'.inside ls) := by
  rw [hd.item_bind]
  exact bind_of_error (hd.nextToken_local.inside_of_error ls h)

/-- A round in the innermost list, where others are open around it. -/
def listRound (d : Dialect σ) (limit : Nat) (l : OpenList) (ls : List OpenList) :
    List Value → ReadM σ (List Value ⊕ List Value) :=
  d.itemsRound (d.nested (limit - (ls.length + 1))) l.bracket l.start

/-- Reads the rest of the innermost list. -/
def readRest (d : Dialect σ) (limit : Nat) (l : OpenList) (ls : List OpenList) :
    ReadM σ (List Value) :=
  ReadM.within (.list l.bracket) (ReadM.loop (d.listRound limit l ls) l.taken)

theorem readRest_of_error
    (h : d.listRound limit l ls l.taken (s.inside (l :: ls)) = .error e (s'.inside (l :: ls))) :
    d.readRest limit l ls (s.inside ls) = .error e (s'.inside ls) :=
  Tracks.within_of_error (s := s.inside ls) (loop_of_error (τ := Session σ) h)

/-- A round that finds the closing bracket ends the list. -/
theorem readRest_of_done
    (h : d.listRound limit l ls l.taken (s.inside (l :: ls))
      = .ok (.inr vs) (s'.inside (l :: ls))) :
    d.readRest limit l ls (s.inside ls) = .ok vs (s'.inside ls) :=
  Tracks.within_of_ok (s := s.inside ls) (loop_of_done (τ := Session σ) h)

/-- Any other round goes on with one more value taken. -/
theorem readRest_of_more (hd : d.Tracked) (hs : s.cursor.At d.isAtomChar p cs fault)
    (h : d.listRound limit l ls l.taken (s.inside (l :: ls))
      = .ok (.inl vs) (s'.inside (l :: ls))) :
    d.readRest limit l ls (s.inside ls)
      = d.readRest limit { l with taken := vs } ls (s'.inside ls) :=
  ReadM.within_congr (s := s.inside ls) (u := s'.inside ls) <|
    loop_of_more (τ := Session σ) (s := s.inside (l :: ls))
      (hd.itemsRound (hd.nested { cut := fault } _) l.bracket l.start)
      (fun _ _ _ _ h _ _ => h.1) hs h

/-- Where a list leaves off. -/
theorem items_of_ok {room : Nat} (hd : d.Tracked) (hs : s.cursor.At d.isAtomChar p cs fault)
    (h : (d.nested room).items b place s = .ok vs s') :
    ∃ p' rest, s'.cursor.At d.isAtomChar p' rest fault ∧ rest.length ≤ cs.length := by
  obtain ⟨front, rest, rfl, hs', -⟩ :=
    ((hd.nested { cut := fault } room).items b place p cs).of_ok hs h
  exact ⟨_, rest, hs', (List.suffix_append front rest).length_le⟩

theorem Flat.context_of_ok {r : Token × Pos} (hd : d.Flat) (hs : s.context = [])
    (h : d.nextToken s = .ok r s') : s'.context = [] :=
  (congrArg Session.context ((Keeps.of_local hd.nextToken_local).eq_moved_of_ok h)).trans hs

theorem Flat.context_of_error (hd : d.Flat) (hs : s.context = [])
    (h : d.nextToken s = .error e s') : s'.context = [] :=
  (congrArg Session.context ((Keeps.of_local hd.nextToken_local).eq_moved_of_error h)).trans hs

/-! ## The stack machine and the reader -/

/-- The stack machine has done what the reader of a list has done: it goes on with the list as a
value from where the reader has stopped, or it fails as the reader does. -/
def Agrees (d : Dialect σ) (limit : Nat) (stack : Stack)
    (ran : EStateM.Result Failure (Session σ) (List Value)) :
    EStateM.Result Failure (Session σ) (List Value) → Prop
  | .ok vs u => ∃ s', s'.context = [] ∧ u = s'.inside stack.lists ∧
      ran = Stack.run limit (d.tokens s') (stack.add (.list vs))
  | .error e u => ∃ s', s'.context = [] ∧ u = s'.inside stack.lists ∧ ran = .error e s'

/-- An opening bracket begins a list if there is room for it. -/
theorem agrees_opener (hs : s.context = [])
    (h : Agrees d limit ⟨ls, values⟩
      (Stack.run limit (d.tokens s) ⟨{ bracket := b, start := place } :: ls, values⟩)
      (d.readRest limit { bracket := b, start := place } ls (s.inside ls))) :
    Agrees d limit ⟨ls, values⟩ (Stack.run limit (.opener b place s (d.tokens s)) ⟨ls, values⟩)
      ((d.nested (limit - ls.length)).items b place (s.inside ls)) := by
  rw [Stack.run]
  split
  · next hlt =>
    -- The room that is left goes down by one for each open list.
    obtain ⟨room, hroom⟩ := Nat.exists_eq_succ_of_ne_zero (Nat.sub_ne_zero_of_lt hlt)
    unfold readRest listRound at h
    rw [Nat.sub_add_eq, hroom] at h
    rw [hroom]
    exact h
  · next hge =>
    rw [Nat.sub_eq_zero_of_le (Nat.le_of_not_lt hge)]
    exact ⟨s, hs, rfl, rfl⟩

/-- **The innermost list.** The stack machine finds the items that the reader finds. -/
theorem Flat.agrees_list (hd : d.Flat) (limit : Nat) (hs : s.cursor.At d.isAtomChar p cs fault)
    (hcontext : s.context = []) (l : OpenList) (ls : List OpenList) (values : List Value) :
    Agrees d limit ⟨ls, values⟩ (Stack.run limit (d.tokens s) ⟨l :: ls, values⟩)
      (d.readRest limit l ls (s.inside ls)) := by
  -- The induction is on the text that is left: a list in this one begins after its bracket, and
  -- the items after an item stand in what that leaves.
  induction hlength : cs.length using Nat.strong_induction_on generalizing p cs s l ls with
  | _ k ih =>
    subst hlength
    -- A value is one more item of the list, which is the innermost one still.
    have hmore {v : Value} {p' : Pos} {rest : List Char} {u : Session σ}
        (hround : d.listRound limit l ls l.taken (s.inside (l :: ls))
          = .ok (.inl (v :: l.taken)) (u.inside (l :: ls)))
        (hu : u.cursor.At d.isAtomChar p' rest fault) (hucontext : u.context = [])
        (hlt : rest.length < cs.length) :
        Agrees d limit ⟨ls, values⟩ (Stack.run limit (d.tokens u) (Stack.add v ⟨l :: ls, values⟩))
          (d.readRest limit l ls (s.inside ls)) := by
      rw [readRest_of_more hd.known.tracked hs hround]
      exact ih rest.length hlt hu hucontext { l with taken := v :: l.taken } ls rfl
    cases htoken : d.nextToken s with
    | error e s₁ =>
      rw [tokens_of_error htoken, readRest_of_error (hd.item_bind_of_error _ htoken)]
      exact ⟨s₁, hd.context_of_error hcontext htoken, rfl, rfl⟩
    | ok r s₁ =>
      obtain ⟨token, place⟩ := r
      have hcontext₁ := hd.context_of_ok hcontext htoken
      obtain ⟨p₁, rest, hs₁, hlt⟩ := nextToken_of_ok hd.known.tracked hs htoken
      have hround : d.listRound limit l ls l.taken (s.inside (l :: ls)) = afterToken _ _ _ _ :=
        hd.item_bind_of_ok (l :: ls) htoken
      rw [tokens_of_ok hd.known.tracked hs htoken]
      cases token with
      | ended =>
        rw [readRest_of_error hround]
        exact ⟨s₁, hcontext₁, rfl, rfl⟩
      | value v => exact hmore hround hs₁ hcontext₁ (hlt nofun)
      | closer b =>
        have hround : d.listRound limit l ls l.taken (s.inside (l :: ls))
            = (if b = l.bracket then pure (.inr l.taken.reverse) else ReadM.stray b place)
              (s₁.inside (l :: ls)) := hround
        rw [TokenStream.cons, Stack.run]
        split
        · next hb =>
          rw [if_pos hb] at hround
          rw [readRest_of_done hround]
          exact ⟨s₁, hcontext₁, rfl, rfl⟩
        · next hb =>
          rw [if_neg hb] at hround
          rw [readRest_of_error hround]
          exact ⟨s₁, hcontext₁, rfl, rfl⟩
      | opener b =>
        have hlt := hlt nofun
        -- First the list that begins here, with this one around it; then it is an item of this one.
        have hitems := agrees_opener hcontext₁
          (ih rest.length hlt hs₁ hcontext₁ { bracket := b, start := place } (l :: ls) rfl)
        rw [TokenStream.cons]
        cases hres : (d.nested (limit - (l :: ls).length)).items b place (s₁.inside (l :: ls)) with
        | error e u =>
          rw [hres] at hitems
          obtain ⟨s₂, hcontext₂, rfl, hran⟩ := hitems
          rw [hran, readRest_of_error (hround.trans (bind_of_error hres))]
          exact ⟨s₂, hcontext₂, rfl, rfl⟩
        | ok vs u =>
          rw [hres] at hitems
          obtain ⟨s₂, hcontext₂, rfl, hran⟩ := hitems
          obtain ⟨p₂, rest', hs₂, hle⟩ :=
            items_of_ok (s := s₁.inside (l :: ls)) hd.known.tracked hs₁ hres
          rw [hran]
          exact hmore (hround.trans (bind_of_ok hres)) hs₂ hcontext₂ (hle.trans_lt hlt)

/-- **The document.** Without open lists, the machine finds the values that the reader finds. -/
theorem Flat.run_eq_loop (hd : d.Flat) (hs : s.cursor.At d.isAtomChar p cs fault)
    (hcontext : s.context = []) (values : List Value) :
    Stack.run s.limit (d.tokens s) ⟨[], values⟩ = ReadM.loop d.readAllRound values s := by
  induction hlength : cs.length using Nat.strong_induction_on generalizing p cs s values with
  | _ k ih =>
    subst hlength
    have hmore {v : Value} {p' : Pos} {rest : List Char} {u : Session σ}
        (hround : d.readAllRound values s = .ok (.inl (v :: values)) u)
        (hu : u.cursor.At d.isAtomChar p' rest fault) (hlt : rest.length < cs.length) :
        Stack.run s.limit (d.tokens u) ⟨[], v :: values⟩ = ReadM.loop d.readAllRound values s := by
      have hmoved := (hd.known.uniform.readAllRound_keeps values).eq_moved_of_ok hround
      have hcontext : u.context = [] := (congrArg Session.context hmoved).trans hcontext
      have hlimit : s.limit = u.limit := by
        rw [hmoved]
        rfl
      rw [hlimit, ih rest.length hlt hu hcontext _ rfl]
      exact (hd.known.tracked.loop_readAllRound_of_more hs hround).symm
    have hroom : s.room = s.limit - ([] : List OpenList).length := by
      rw [Session.room, hcontext]
      rfl
    cases htoken : d.nextToken s with
    | error e s₁ =>
      have hround : d.readAllRound values s = .error e s₁ := by
        rw [readAllRound_eq, hd.item_bind, bind_of_error htoken]
      rw [tokens_of_error htoken]
      exact (loop_of_error (τ := Session σ) hround).symm
    | ok r s₁ =>
      obtain ⟨token, place⟩ := r
      have hcontext₁ := hd.context_of_ok hcontext htoken
      obtain ⟨p₁, rest, hs₁, hlt⟩ := nextToken_of_ok hd.known.tracked hs htoken
      have hround : d.readAllRound values s
          = afterToken (d.nested s.room) (collect values) (token, place) s₁ := by
        rw [readAllRound_eq, hd.item_bind, bind_of_ok htoken]
      rw [tokens_of_ok hd.known.tracked hs htoken]
      cases token with
      | ended => exact (loop_of_done (τ := Session σ) hround).symm
      | value v => exact hmore hround hs₁ (hlt nofun)
      | closer b =>
        have hinnermost : s₁.innermost? = none := by
          rw [Session.innermost?, hcontext₁]
          rfl
        have hround : d.readAllRound values s
            = .error ⟨.strayCloser s₁.innermost? b, place⟩ s₁ := hround
        rw [hinnermost] at hround
        exact (loop_of_error (τ := Session σ) hround).symm
      | opener b =>
        -- Without lists around it, the reader of the list is in the session itself.
        have hitems := agrees_opener hcontext₁
          (hd.agrees_list s.limit hs₁ hcontext₁ { bracket := b, start := place } [] values)
        rw [Session.inside_nil hcontext₁, ← hroom] at hitems
        rw [TokenStream.cons]
        cases hres : (d.nested s.room).items b place s₁ with
        | error e u =>
          rw [hres] at hitems
          obtain ⟨s₂, hcontext₂, rfl, hran⟩ := hitems
          rw [Session.inside_nil hcontext₂] at hres
          rw [hran]
          exact (loop_of_error (τ := Session σ) (hround.trans (bind_of_error hres))).symm
        | ok vs u =>
          rw [hres] at hitems
          obtain ⟨s₂, hcontext₂, rfl, hran⟩ := hitems
          rw [Session.inside_nil hcontext₂] at hres
          obtain ⟨p₂, rest', hs₂, hle⟩ := items_of_ok hd.known.tracked hs₁ hres
          rw [hran]
          exact hmore (hround.trans (bind_of_ok hres)) hs₂ (hle.trans_lt (hlt nofun))

/-- **Structure does not need recursion.** Where nothing is nested in tokens, the stack machine does
with the stream of tokens what the recursive reader does with the text: it finds the same values, or
fails for the same cause at the same place, and in either case it leaves the same session. -/
theorem readAll_eq_run (d : Dialect σ) (hd : d.Flat) (text : List Char) (fault : Option Fault)
    (memory : σ) (limit : Nat) :
    d.readAll (.fresh text fault memory limit)
      = Stack.run limit (d.tokens (.fresh text fault memory limit)) {} :=
  (hd.run_eq_loop (Session.fresh_at d.isAtomChar text fault memory limit) rfl []).symm

/-- A prefix is defined and used, and the list that uses it is closed by the wrong bracket. -/
theorem readAll_eq_run_sparql :
    Flat sparql ∧ sparql.readAll (.fresh "(prefix ((ex: <a:>)) [ex:b)".toList none {} 3)
      = Stack.run 3 (sparql.tokens (.fresh "(prefix ((ex: <a:>)) [ex:b)".toList none {} 3)) {} :=
  ⟨.sparql, readAll_eq_run sparql .sparql _ none {} 3⟩

example : (match Stack.run 3 (sparql.tokens (.fresh "(prefix ((ex: <a:>)) [ex:b)".toList none {} 3))
      {} with
    | .error e _ => some e
    | .ok _ _ => none) = some ⟨.strayCloser (some .square) .round, ⟨0, 26⟩⟩ := by decide +kernel

end Dialect

end SExpr
