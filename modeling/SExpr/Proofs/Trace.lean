import SExpr.Proofs.EntryPoints
import SExpr.Proofs.Nesting
import SExpr.Proofs.TokenStream

/-!
# Where tokens are asked for

A reader asks its dialect for one token after the other. To say what happens in between, the
dialect can be made to note the session it is asked in. No reading can tell the dialect that takes
notes from the dialect itself.

* **`Dialect.traced`**: the dialect that takes notes.
* **`Dialect.Asked`**: a run from one token to the next. Each token is asked for with the memory
  that the one before it has left, and with those lists open whose brackets have been read.
* **`Spells`**: the values that tokens make up.
* **`Dialect.Flat.call_asked`**: a call is such a run, and its values are what the tokens make up.
-/

namespace SExpr

open ReadM

variable {σ α β : Type}

/-! ## Taking notes -/

/-- What a dialect remembers, and the sessions in which it has been asked for a token, the last one
first. -/
structure Traced (σ : Type) where
  memory : σ
  asked : List (Session σ) := []

namespace Session

/-- The session without the notes. -/
def plain (s : Session (Traced σ)) : Session σ where
  cursor := s.cursor
  context := s.context
  limit := s.limit
  failed := s.failed
  memory := s.memory.memory

/-- The session with the given notes. -/
def traced (s : Session σ) (asked : List (Session σ)) : Session (Traced σ) where
  cursor := s.cursor
  context := s.context
  limit := s.limit
  failed := s.failed
  memory := { memory := s.memory, asked }

end Session

namespace ReadM

/-- The action, which leaves the notes as they are. -/
def traced (x : ReadM σ α) : ReadM (Traced σ) α := fun s =>
  match x s.plain with
  | .ok a u => .ok a (u.traced s.memory.asked)
  | .error e u => .error e (u.traced s.memory.asked)

/-- Notes the session in which an action begins. -/
def noted (x : ReadM (Traced σ) α) : ReadM (Traced σ) α := fun s =>
  x { s with memory.asked := s.plain :: s.memory.asked }

variable {x : ReadM σ α} {s : Session (Traced σ)} {u : Session σ}

theorem traced_of_ok {a : α} (h : x s.plain = .ok a u) :
    x.traced s = .ok a (u.traced s.memory.asked) := by
  unfold traced
  rw [h]

theorem traced_of_error {e : Failure} (h : x s.plain = .error e u) :
    x.traced s = .error e (u.traced s.memory.asked) := by
  unfold traced
  rw [h]

theorem noted_of_ok {a : α} (h : x s.plain = .ok a u) :
    noted x.traced s = .ok a (u.traced (s.plain :: s.memory.asked)) :=
  traced_of_ok (s := { s with memory.asked := s.plain :: s.memory.asked }) h

theorem noted_of_error {e : Failure} (h : x s.plain = .error e u) :
    noted x.traced s = .error e (u.traced (s.plain :: s.memory.asked)) :=
  traced_of_error (s := { s with memory.asked := s.plain :: s.memory.asked }) h

theorem onCursor_of_ok {x : CursorM α} {s : Session σ} {a : α} {c : Cursor}
    (h : x s.cursor = .ok a c) : onCursor x s = .ok a { s with cursor := c } := by
  unfold onCursor
  rw [h]

theorem onCursor_of_error {x : CursorM α} {s : Session σ} {e : Failure} {c : Cursor}
    (h : x s.cursor = .error e c) : onCursor x s = .error e { s with cursor := c } := by
  unfold onCursor
  rw [h]

/-- What only moves the cursor leaves no notes. -/
theorem traced_onCursor (x : CursorM α) :
    (onCursor x : ReadM σ α).traced = (onCursor x : ReadM (Traced σ) α) := by
  funext s
  cases hx : x s.cursor with
  | ok a c => rw [traced_of_ok (onCursor_of_ok (s := s.plain) hx), onCursor_of_ok hx]; rfl
  | error e c => rw [traced_of_error (onCursor_of_error (s := s.plain) hx), onCursor_of_error hx]; rfl

end ReadM

/-- The dialect, which notes where it is asked for a token. What is nested in its tokens is not
read, so this is for dialects whose tokens have nothing nested in them. -/
def Dialect.traced (d : Dialect σ) : Dialect (Traced σ) where
  name := d.name
  spelling := d.spelling
  brackets := d.brackets
  atom text p := (d.atom text p).traced
  trivia _ := (d.trivia (d.nested 0)).traced
  token _ := noted (d.token (d.nested 0)).traced

namespace Call

/-- The sessions in which a call asks for tokens. -/
def asked (d : Dialect σ) (s : Session σ) (call : Call) : List (Session σ) :=
  (call.run d.traced (s.traced [])).memory.asked.reverse

/-- The sessions in which each of the calls asks for tokens. -/
def trace (d : Dialect σ) (s : Session σ) : List Call → List (List (Session σ))
  | [] => []
  | call :: calls => call.asked d s :: trace d (call.run d s) calls

end Call

/-! ## Runs -/

/-- A token that is read with `ctx` open leaves `ctx'` open. -/
inductive Token.Turns : Token → List Frame → List Frame → Prop
  | ended (ctx) : Turns .ended ctx ctx
  | value (v : Value) (ctx) : Turns (.value v) ctx ctx
  | opener (b : Bracket) (ctx) : Turns (.opener b) ctx (.list b :: ctx)
  | closer (b : Bracket) (ctx) : Turns (.closer b) (.list b :: ctx) ctx

theorem Token.Turns.of_ended {ctx ctx' : List Frame} (h : Turns .ended ctx ctx') : ctx' = ctx := by
  cases h
  rfl

namespace Dialect

/-- The token that is read in the session, if one is. -/
def tokenAt? (d : Dialect σ) (s : Session σ) : Option Token :=
  match d.readToken s with
  | .ok token _ => some token
  | .error _ _ => none

/-- What is remembered after the token, or after the failure to read it. -/
def memoryAt (d : Dialect σ) (s : Session σ) : σ := (Call.leaves d.readToken s).memory

/-- A run through tokens: what is open and remembered at its beginning, the sessions in which
tokens are asked for, and what is open and remembered at its end. -/
inductive Asked (d : Dialect σ) : List Frame → σ → List (Session σ) → List Frame → σ → Prop
  | nil (ctx : List Frame) (m : σ) : Asked d ctx m [] ctx m
  | cons {a : Session σ} {token : Token} {asks : List (Session σ)} {ctx ctx' : List Frame} {m : σ}
      (read : d.tokenAt? a = some token) (turns : token.Turns a.context ctx)
      (rest : Asked d ctx (d.memoryAt a) asks ctx' m) :
      Asked d a.context a.memory (a :: asks) ctx' m

/-- A run that may break off: the last token may be missing, or not fit what is open. -/
inductive BreaksOff (d : Dialect σ) (ctx : List Frame) (m : σ) : List (Session σ) → σ → Prop
  | between {asks : List (Session σ)} {ctx' : List Frame} {m' : σ} (run : Asked d ctx m asks ctx' m') :
      BreaksOff d ctx m asks m'
  | within {asks : List (Session σ)} {a : Session σ} (run : Asked d ctx m asks a.context a.memory) :
      BreaksOff d ctx m (asks ++ [a]) (d.memoryAt a)

/-- Sessions in which tokens are asked for, each with the memory that the one before it has left. -/
inductive Linked (d : Dialect σ) : σ → List (Session σ) → σ → Prop
  | nil (m : σ) : Linked d m [] m
  | cons {a : Session σ} {asks : List (Session σ)} {m : σ} (rest : Linked d (d.memoryAt a) asks m) :
      Linked d a.memory (a :: asks) m

variable {d : Dialect σ} {ctx ctx' ctx'' : List Frame} {m m' m'' : σ}
  {asks more : List (Session σ)} {a : Session σ} {token : Token}

/-- A run goes on where another one has left off. -/
theorem Asked.append (h : d.Asked ctx m asks ctx' m') (h' : d.Asked ctx' m' more ctx'' m'') :
    d.Asked ctx m (asks ++ more) ctx'' m'' := by
  induction h with
  | nil => exact h'
  | cons hread hturns _ ih => exact .cons hread hturns (ih h')

theorem Asked.snoc (h : d.Asked ctx m asks a.context a.memory) (hread : d.tokenAt? a = some token)
    (hturns : token.Turns a.context ctx') : d.Asked ctx m (asks ++ [a]) ctx' (d.memoryAt a) :=
  h.append (.cons hread hturns (.nil _ _))

/-- A run that has read no token has asked for none. -/
theorem Asked.of_no_token (h : d.Asked ctx m asks ctx' m') (htokens : asks.filterMap d.tokenAt? = []) :
    asks = [] ∧ ctx = ctx' ∧ m = m' := by
  cases h with
  | nil => exact ⟨rfl, rfl, rfl⟩
  | cons hread _ _ =>
    rw [List.filterMap_cons_some hread] at htokens
    cases htokens

/-- The last token of a run, and the run up to it. -/
theorem Asked.exists_last {ts : List Token} (h : d.Asked ctx m asks ctx' m')
    (htokens : asks.filterMap d.tokenAt? = ts ++ [token]) :
    ∃ before a, asks = before ++ [a] ∧ d.tokenAt? a = some token ∧ token.Turns a.context ctx' ∧
      d.memoryAt a = m' ∧ d.Asked ctx m before a.context a.memory ∧
      before.filterMap d.tokenAt? = ts := by
  induction h generalizing ts with
  | nil => simp at htokens
  | @cons a first asks _ _ _ hread hturns rest ih =>
    rw [List.filterMap_cons_some hread] at htokens
    cases ts with
    | nil =>
      obtain ⟨hfirst, hnil⟩ := List.cons.inj htokens
      obtain ⟨rfl, rfl, rfl⟩ := rest.of_no_token hnil
      rw [hfirst] at hread hturns
      exact ⟨[], a, rfl, hread, hturns, rfl, .nil _ _, rfl⟩
    | cons t ts =>
      obtain ⟨hfirst, htail⟩ := List.cons.inj htokens
      rw [hfirst] at hread
      obtain ⟨before, b, rfl, hlast, hturns', hm, hrun, hbefore⟩ := ih htail
      refine ⟨a :: before, b, rfl, hlast, hturns', hm, .cons hread (hfirst ▸ hturns) hrun, ?_⟩
      rw [List.filterMap_cons_some hread, hbefore]

/-- A run that breaks off may come after one that does not. -/
theorem Asked.breaksOff (h : d.Asked ctx m asks ctx' m') (h' : d.BreaksOff ctx' m' more m'') :
    d.BreaksOff ctx m (asks ++ more) m'' := by
  cases h' with
  | between run => exact .between (h.append run)
  | within run =>
    rw [← List.append_assoc]
    exact .within (h.append run)

/-- Memories are handed on from one run to the next. -/
theorem Linked.append (h : d.Linked m asks m') (h' : d.Linked m' more m'') :
    d.Linked m (asks ++ more) m'' := by
  induction h with
  | nil => exact h'
  | cons _ ih => exact .cons (ih h')

/-- A session in which a token is asked for divides what comes before it from what comes after. -/
theorem Linked.of_append {before after : List (Session σ)}
    (h : d.Linked m (before ++ a :: after) m') :
    d.Linked m before a.memory ∧ d.Linked (d.memoryAt a) after m' := by
  induction before generalizing m with
  | nil =>
    cases h with
    | cons rest => exact ⟨.nil _, rest⟩
  | cons b before ih =>
    cases h with
    | cons rest => exact ⟨.cons (ih rest).1, (ih rest).2⟩

/-- The memories of a run are handed on. -/
theorem Asked.linked (h : d.Asked ctx m asks ctx' m') : d.Linked m asks m' := by
  induction h with
  | nil => exact .nil _
  | cons _ _ _ ih => exact .cons ih

/-- So are those of a run that breaks off. -/
theorem BreaksOff.linked (h : d.BreaksOff ctx m asks m') : d.Linked m asks m' := by
  cases h with
  | between run => exact run.linked
  | within run => exact run.linked.append (.cons (.nil _))

end Dialect

/-! ## What tokens make up -/

/-- The tokens make up the values: lists are matched brackets. -/
inductive Spells : List Token → List Value → Prop
  | nil : Spells [] []
  | value (v : Value) {ts : List Token} {vs : List Value} (rest : Spells ts vs) :
      Spells (.value v :: ts) (v :: vs)
  | list (b : Bracket) {ts ts' : List Token} {items vs : List Value} (inner : Spells ts items)
      (rest : Spells ts' vs) :
      Spells (.opener b :: ts ++ .closer b :: ts') (.list items :: vs)

/-- The term mentions in a token. -/
def Token.terms : Token → List Value
  | .value v => v.terms
  | _ => []

namespace Spells

variable {ts us : List Token} {vs ws : List Value}

/-- Tokens that follow one another make up values that follow one another. -/
theorem append (h : Spells ts vs) (h' : Spells us ws) : Spells (ts ++ us) (vs ++ ws) := by
  induction h with
  | nil => exact h'
  | value v _ ih => exact .value v ih
  | list b hinner _ _ ih =>
    have hall := Spells.list b hinner ih
    rw [← List.cons_append, ← List.append_assoc] at hall
    exact hall

/-- The terms in the values are those in the tokens. -/
theorem terms_eq (h : Spells ts vs) : ts.flatMap Token.terms = Value.termsAll vs := by
  induction h with
  | nil => rfl
  | value v _ ih => rw [List.flatMap_cons, ih, Value.termsAll, Token.terms]
  | list b _ _ ihinner ih =>
    rw [List.flatMap_append, List.flatMap_cons, List.flatMap_cons, ihinner, ih, Value.termsAll,
      Value.terms]
    rfl

theorem eq_nil (h : Spells ts []) : ts = [] := by
  cases h
  rfl

/-- If no token is a list by itself, then after values of which the last one is a list the last
token is a closing bracket. -/
theorem exists_closer {items : List Value} (h : Spells ts vs)
    (hplain : ∀ items, .value (.list items) ∉ ts) (hlast : vs.getLast? = some (.list items)) :
    ∃ us b, ts = us ++ [.closer b] := by
  -- The last value is made up by the tokens that come last.
  induction h with
  | nil => cases hlast
  | @value v ts vs hrest ih =>
    have hplain' : ∀ items, .value (.list items) ∉ ts :=
      fun items hmem => hplain items (List.mem_cons_of_mem _ hmem)
    cases vs with
    | nil =>
      obtain rfl := Option.some.inj hlast
      exact absurd List.mem_cons_self (hplain items)
    | cons w ws =>
      rw [List.getLast?_cons_cons] at hlast
      obtain ⟨us, b, rfl⟩ := ih hplain' hlast
      exact ⟨.value v :: us, b, rfl⟩
  | @list b ts ts' inner vs _ hrest _ ih =>
    have hplain' : ∀ items, .value (.list items) ∉ ts' := fun items hmem =>
      hplain items (List.mem_append_right _ (List.mem_cons_of_mem _ hmem))
    cases vs with
    | nil =>
      obtain rfl := hrest.eq_nil
      exact ⟨.opener b :: ts, b, rfl⟩
    | cons w ws =>
      rw [List.getLast?_cons_cons] at hlast
      obtain ⟨us, c, rfl⟩ := ih hplain' hlast
      exact ⟨.opener b :: ts ++ .closer b :: us, c, by simp⟩

end Spells

/-! ## Two readings, one with notes -/

/-- Where `ctx` is open and `pre` holds of the memory with its notes, `x` does what `y` does without
notes, and goes on to have `ctx` open. If it succeeds, `post` holds of the result and the memory;
if it fails, `ends` holds of the memory. -/
def Traces (ctx : List Frame) (pre : Traced σ → Prop) (x : ReadM (Traced σ) α) (y : ReadM σ α)
    (post : α → Traced σ → Prop) (ends : Traced σ → Prop) : Prop :=
  ∀ s, s.context = ctx → pre s.memory →
    (∃ a u, x s = .ok a u ∧ y s.plain = .ok a u.plain ∧ u.context = ctx ∧ post a u.memory) ∨
    ∃ e u, x s = .error e u ∧ y s.plain = .error e u.plain ∧ u.context = ctx ∧ ends u.memory

namespace Traces

variable {ctx : List Frame} {pre ends : Traced σ → Prop} {post : α → Traced σ → Prop}

/-- Less may be assumed and more may be found out. -/
theorem mono {x : ReadM (Traced σ) α} {y : ReadM σ α} {pre' ends' : Traced σ → Prop}
    {post' : α → Traced σ → Prop} (hx : Traces ctx pre x y post ends) (hpre : ∀ m, pre' m → pre m)
    (hpost : ∀ a m, post a m → post' a m) (hends : ∀ m, ends m → ends' m) :
    Traces ctx pre' x y post' ends' := by
  intro s hctx hs
  rcases hx s hctx (hpre _ hs) with ⟨a, u, hx, hy, hu, ha⟩ | ⟨e, u, hx, hy, hu, he⟩
  · exact .inl ⟨a, u, hx, hy, hu, hpost a _ ha⟩
  · exact .inr ⟨e, u, hx, hy, hu, hends _ he⟩

theorem pure {a : α} (h : ∀ m, pre m → post a m) :
    Traces ctx pre (Pure.pure a) (Pure.pure a) post ends :=
  fun s hctx hs => .inl ⟨a, s, rfl, rfl, hctx, h _ hs⟩

theorem fail {cause : Cause} {p : Pos} (h : ∀ m, pre m → ends m) :
    Traces ctx pre (ReadM.fail cause p) (ReadM.fail cause p) post ends :=
  fun s hctx hs => .inr ⟨_, s, rfl, rfl, hctx, h _ hs⟩

theorem stray {b : Bracket} {p : Pos} (h : ∀ m, pre m → ends m) :
    Traces ctx pre (ReadM.stray b p) (ReadM.stray b p) post ends :=
  fun s hctx hs => .inr ⟨_, s, rfl, rfl, hctx, h _ hs⟩

/-- What only moves the cursor leaves the notes as they are. -/
theorem onCursor {x : CursorM α} (hpost : ∀ a m, pre m → post a m) (hends : ∀ m, pre m → ends m) :
    Traces ctx pre (ReadM.onCursor x) (ReadM.onCursor x) post ends := by
  intro s hctx hs
  cases hx : x s.cursor with
  | ok a c =>
    exact .inl ⟨a, { s with cursor := c }, onCursor_of_ok hx, onCursor_of_ok (s := s.plain) hx, hctx,
      hpost a _ hs⟩
  | error e c =>
    exact .inr ⟨e, { s with cursor := c }, onCursor_of_error hx, onCursor_of_error (s := s.plain) hx,
      hctx, hends _ hs⟩

/-- The second part begins with the notes of the first one. -/
theorem bind {x : ReadM (Traced σ) β} {y : ReadM σ β} {f : β → ReadM (Traced σ) α}
    {g : β → ReadM σ α} {mid : β → Traced σ → Prop} (hx : Traces ctx pre x y mid ends)
    (hf : ∀ b, Traces ctx (mid b) (f b) (g b) post ends) :
    Traces ctx pre (x >>= f) (y >>= g) post ends := by
  intro s hctx hs
  rcases hx s hctx hs with ⟨b, u, hx, hy, hu, hb⟩ | ⟨e, u, hx, hy, hu, he⟩
  · rw [bind_of_ok hx, bind_of_ok hy]
    exact hf b u hu hb
  · exact .inr ⟨e, u, bind_of_error hx, bind_of_error hy, hu, he⟩

/-- Within a list, one more frame is open. -/
theorem within {x : ReadM (Traced σ) α} {y : ReadM σ α} {frame : Frame}
    (hx : Traces (frame :: ctx) pre x y post ends) :
    Traces ctx pre (ReadM.within frame x) (ReadM.within frame y) post ends := by
  intro s hctx hs
  rcases hx { s with context := frame :: s.context } (by rw [hctx]) hs with
    ⟨a, u, hx, hy, hu, ha⟩ | ⟨e, u, hx, hy, hu, he⟩
  · have hy' : ReadM.within frame y s.plain =
        .ok a { u.plain with context := u.plain.context.tail } := Tracks.within_of_ok hy
    refine .inl ⟨a, { u with context := u.context.tail }, Tracks.within_of_ok hx, hy', ?_, ha⟩
    show u.context.tail = ctx
    rw [hu, List.tail_cons]
  · have hy' : ReadM.within frame y s.plain =
        .error e { u.plain with context := u.plain.context.tail } := Tracks.within_of_error hy
    refine .inr ⟨e, { u with context := u.context.tail }, Tracks.within_of_error hx, hy', ?_, he⟩
    show u.context.tail = ctx
    rw [hu, List.tail_cons]

/-- A loop takes an invariant. Both loops have the same allowance, as they stand at the same
place. -/
theorem loop {step : β → ReadM (Traced σ) (β ⊕ α)} {step' : β → ReadM σ (β ⊕ α)}
    (inv : β → Traced σ → Prop)
    (hstep : ∀ b, Traces ctx (inv b) (step b) (step' b) (fun
      | .inl b' => inv b'
      | .inr a => post a) ends)
    (hends : ∀ b m, inv b m → ends m) (b : β) :
    Traces ctx (inv b) (ReadM.loop step b) (ReadM.loop step' b) post ends := by
  have hrounds (xs : List (Char × Pos)) : ∀ b, Traces ctx (inv b)
      (SExpr.loop step (ReadM.onCursor Cursor.stuck) xs b)
      (SExpr.loop step' (ReadM.onCursor Cursor.stuck) xs b) post ends := by
    -- The induction is on the characters that bound the rounds.
    induction xs with
    | nil =>
      intro b
      rw [loop_eq_bind step, loop_eq_bind step']
      refine (hstep b).bind fun r => ?_
      cases r with
      | inr a => exact .pure fun _ h => h
      | inl b' =>
        intro s hctx hs
        exact .inr ⟨_, s, rfl, rfl, hctx, hends b' _ hs⟩
    | cons x xs ih =>
      intro b
      rw [loop_eq_bind step, loop_eq_bind step']
      refine (hstep b).bind fun r => ?_
      cases r with
      | inr a => exact .pure fun _ h => h
      | inl b' => exact ih b'
  exact fun s => hrounds s.cursor.located b s

end Traces

/-! ## Readers -/

namespace Dialect

variable {d : Dialect σ} {s₀ : Session σ} {ctx ctx' : List Frame} {ts : List Token}

/-- The notes tell a run from `s₀` through the given tokens. -/
structure Reached (d : Dialect σ) (s₀ : Session σ) (ctx : List Frame) (ts : List Token)
    (m : Traced σ) : Prop where
  run : d.Asked s₀.context s₀.memory m.asked.reverse ctx m.memory
  tokens : m.asked.reverse.filterMap d.tokenAt? = ts

/-- The notes tell a run from `s₀` that may have broken off. -/
def Stopped (d : Dialect σ) (s₀ : Session σ) (m : Traced σ) : Prop :=
  d.BreaksOff s₀.context s₀.memory m.asked.reverse m.memory

theorem Reached.stopped {m : Traced σ} (h : d.Reached s₀ ctx ts m) : d.Stopped s₀ m :=
  .between h.run

/-- What comes before a token leaves the notes as they are. -/
theorem Flat.traces_trivia (hd : d.Flat) (n : Nested (Traced σ)) (n' : Nested σ) :
    Traces ctx (d.Reached s₀ ctx ts) (d.traced.trivia n) (d.trivia n')
      (fun _ => d.Reached s₀ ctx ts) (d.Stopped s₀) := by
  have htrivia : ∃ x : CursorM Unit, ∀ n, d.trivia n = ReadM.onCursor x := by
    cases hd with
    | basic => exact ⟨_, fun _ => rfl⟩
    | extended => exact ⟨_, fun _ => rfl⟩
    | sparql => exact ⟨_, fun _ => rfl⟩
  obtain ⟨x, hx⟩ := htrivia
  have htraced : d.traced.trivia n = ReadM.onCursor x := by
    rw [← traced_onCursor, ← hx (d.nested 0)]
    rfl
  rw [htraced, hx]
  exact .onCursor (fun _ _ h => h) fun _ h => h.stopped

/-- **A token** is asked for where the run has come to, and goes on with it if it fits what is
open. -/
theorem Flat.traces_token (hd : d.Flat) (n : Nested (Traced σ)) (n' : Nested σ) :
    Traces ctx (d.Reached s₀ ctx ts) (d.traced.token n) (d.token n')
      (fun token m => d.Stopped s₀ m ∧
        ∀ ctx', token.Turns ctx ctx' → d.Reached s₀ ctx' (ts ++ [token]) m) (d.Stopped s₀) := by
  rintro s rfl ⟨hrun, htokens⟩
  have hkeeps : Keeps (d.token n') := .of_local (hd.token_local n')
  -- What is nested makes no difference in a flat dialect, so the token is the one that is asked
  -- for.
  have hread : d.readToken s.plain = d.token n' s.plain := congrFun (hd.token_eq _ _) _
  have hasked (u : Session σ) : (u.traced (s.plain :: s.memory.asked)).memory.asked.reverse =
      s.memory.asked.reverse ++ [s.plain] := List.reverse_cons
  have htraced : d.traced.token n = noted (d.token n').traced := by
    rw [hd.token_eq n' (d.nested 0)]
    rfl
  rw [htraced]
  cases hres : d.token n' s.plain with
  | ok token u =>
    have hmemory : d.memoryAt s.plain = u.memory := by
      rw [memoryAt, Call.leaves_of_ok (hread.trans hres)]
    have htoken : d.tokenAt? s.plain = some token := by rw [tokenAt?, hread, hres]
    refine .inl ⟨token, _, noted_of_ok hres, rfl, hkeeps.context_of_ok hres, ?_,
      fun ctx' hturns => ⟨?_, ?_⟩⟩
    · unfold Stopped
      rw [hasked]
      show d.BreaksOff _ _ _ u.memory
      rw [← hmemory]
      exact .within hrun
    · rw [hasked]
      show d.Asked _ _ _ _ u.memory
      rw [← hmemory]
      exact hrun.snoc htoken hturns
    · rw [hasked, List.filterMap_append, htokens, List.filterMap_cons_some htoken]
      rfl
  | error e u =>
    have hmemory : d.memoryAt s.plain = u.memory := by
      rw [memoryAt, Call.leaves_of_error (hread.trans hres)]
    refine .inr ⟨e, _, noted_of_error hres, rfl, hkeeps.context_of_error hres, ?_⟩
    unfold Stopped
    rw [hasked]
    show d.BreaksOff _ _ _ u.memory
    rw [← hmemory]
    exact .within hrun

/-- What is nested in a run, where `ctx` is open around it: a list goes up to its closing
bracket. -/
def NestedTraces (d : Dialect σ) (s₀ : Session σ) (ctx : List Frame) (n : Nested (Traced σ))
    (n' : Nested σ) : Prop :=
  ∀ b p ts, Traces ctx (d.Reached s₀ (.list b :: ctx) ts) (n.items b p) (n'.items b p)
    (fun vs m => ∃ us, Spells us vs ∧ d.Reached s₀ ctx (ts ++ us ++ [.closer b]) m) (d.Stopped s₀)

/-- What the notes tell after an item. -/
def ItemReached (d : Dialect σ) (s₀ : Session σ) (ctx : List Frame) (ts : List Token) :
    Item → Traced σ → Prop
  | .value v, m => ∃ us, Spells us [v] ∧ d.Reached s₀ ctx (ts ++ us) m
  | .closer b _, m => d.Stopped s₀ m ∧
    ∀ ctx', Token.Turns (.closer b) ctx ctx' → d.Reached s₀ ctx' (ts ++ [.closer b]) m
  | .ended _, m => d.Reached s₀ ctx (ts ++ [.ended]) m

/-- An item is one token, or a list from its opening bracket to its closing one. -/
theorem Flat.traces_item {n : Nested (Traced σ)} {n' : Nested σ} (hd : d.Flat)
    (hn : d.NestedTraces s₀ ctx n n') (ts : List Token) :
    Traces ctx (d.Reached s₀ ctx ts) (d.traced.item n) (d.item n')
      (d.ItemReached s₀ ctx ts) (d.Stopped s₀) := by
  have hhere : Traces ctx (d.Reached s₀ ctx ts) (ReadM.onCursor Cursor.here)
      (ReadM.onCursor Cursor.here) (fun _ => d.Reached s₀ ctx ts) (d.Stopped s₀) :=
    .onCursor (fun _ _ h => h) fun _ h => h.stopped
  refine (hd.traces_trivia n n').bind fun _ => hhere.bind fun p => ?_
  refine (hd.traces_token n n').bind fun token => ?_
  cases token with
  | ended => exact .pure fun m h => h.2 ctx (.ended ctx)
  | closer b => exact .pure fun m h => h
  | value v => exact .pure fun m h => ⟨[.value v], .value v .nil, h.2 ctx (.value v ctx)⟩
  -- The items of the list are nested, and the run goes on behind its bracket.
  | opener b =>
    have hopened : ∀ m, (d.Stopped s₀ m ∧ ∀ ctx', Token.Turns (.opener b) ctx ctx' →
        d.Reached s₀ ctx' (ts ++ [.opener b]) m) →
        d.Reached s₀ (.list b :: ctx) (ts ++ [.opener b]) m := fun m h => h.2 _ (.opener b ctx)
    refine ((hn b p (ts ++ [.opener b])).mono hopened (fun _ _ h => h) fun _ h => h).bind
      fun vs => .pure ?_
    rintro m ⟨us, hus, hm⟩
    refine ⟨.opener b :: us ++ [.closer b], .list b hus .nil, ?_⟩
    simpa using hm

/-- A value is made up by the tokens of its item. -/
theorem Flat.traces_value {n : Nested (Traced σ)} {n' : Nested σ} (hd : d.Flat)
    (hn : d.NestedTraces s₀ ctx n n') (ts : List Token) :
    Traces ctx (d.Reached s₀ ctx ts) (d.traced.value n) (d.value n')
      (fun v m => ∃ us, Spells us [v] ∧ d.Reached s₀ ctx (ts ++ us) m) (d.Stopped s₀) := by
  refine (hd.traces_item hn ts).bind fun item => ?_
  cases item with
  | value v => exact .pure fun _ h => h
  | closer b p => exact .stray fun _ h => h.1
  | ended p => exact .fail fun _ h => h.stopped

/-- **A list** is made up by the tokens up to its closing bracket. -/
theorem Flat.traces_items {n : Nested (Traced σ)} {n' : Nested σ} (hd : d.Flat) {b : Bracket}
    (hn : d.NestedTraces s₀ (.list b :: ctx) n n') (p : Pos) (ts : List Token) :
    Traces (.list b :: ctx) (d.Reached s₀ (.list b :: ctx) ts) (d.traced.items n b p)
      (d.items n' b p)
      (fun vs m => ∃ us, Spells us vs ∧ d.Reached s₀ ctx (ts ++ us ++ [.closer b]) m)
      (d.Stopped s₀) := by
  -- The invariant: the tokens since the opening bracket spell the values taken.
  refine (Traces.loop (fun taken m => ∃ us, Spells us taken.reverse ∧
    d.Reached s₀ (.list b :: ctx) (ts ++ us) m) (fun taken => ?_) ?_ []).mono ?_
    (fun _ _ h => h) fun _ h => h
  · rintro s hctx ⟨us, hus, hs⟩
    refine ((hd.traces_item hn (ts ++ us)).bind fun item => ?_) s hctx hs
    cases item with
    | value v =>
      refine .pure ?_
      rintro m ⟨more, hmore, hm⟩
      refine ⟨us ++ more, ?_, ?_⟩
      · rw [List.reverse_cons]
        exact hus.append hmore
      · rw [← List.append_assoc]
        exact hm
    | closer got q =>
      show Traces _ _ (if got = b then _ else _) (if got = b then _ else _) _ _
      split
      · next hgot =>
        subst hgot
        exact .pure fun m h => ⟨us, hus, h.2 ctx (.closer got ctx)⟩
      · exact .stray fun _ h => h.1
    | ended q => exact .fail fun _ h => h.stopped
  · rintro taken m ⟨us, -, hm⟩
    exact hm.stopped
  · intro m hm
    refine ⟨[], .nil, ?_⟩
    rw [List.append_nil]
    exact hm

/-- The recursion goes down with the room; each list has one more frame open around it. -/
theorem Flat.traces_nested (hd : d.Flat) (s₀ : Session σ) (room : Nat) (ctx : List Frame) :
    d.NestedTraces s₀ ctx (d.traced.nested room) (d.nested room) := by
  induction room generalizing ctx with
  | zero => exact fun b p ts => .fail fun _ h => h.stopped
  | succ room ih => exact fun b p ts => .within (hd.traces_items (ih (.list b :: ctx)) p ts)

/-- A call reads with the room of its session, and so does the call with notes. -/
theorem Flat.traces_withRoom (hd : d.Flat) {pre ends : Traced σ → Prop}
    {post : α → Traced σ → Prop} {f : Nested (Traced σ) → ReadM (Traced σ) α}
    {g : Nested σ → ReadM σ α}
    (h : ∀ n n', d.NestedTraces s₀ ctx n n' → Traces ctx pre (f n) (g n') post ends) :
    Traces ctx pre (d.traced.withRoom f) (d.withRoom g) post ends :=
  fun s => h _ _ (hd.traces_nested s₀ s.room ctx) s

/-- The notes tell a run that begins with `s₀` and leaves open what is open there. Its tokens spell
the given values, and there may have been an end after them. -/
def Gave (d : Dialect σ) (s₀ : Session σ) (vs : List Value) (m : Traced σ) : Prop :=
  ∃ us, Spells us vs ∧
    (d.Reached s₀ s₀.context us m ∨ d.Reached s₀ s₀.context (us ++ [.ended]) m)

theorem Gave.stopped {vs : List Value} {m : Traced σ} (h : d.Gave s₀ vs m) : d.Stopped s₀ m := by
  obtain ⟨us, -, h | h⟩ := h
  · exact h.stopped
  · exact h.stopped

/-- One value, by the tokens that make it up. -/
theorem Flat.traces_read (hd : d.Flat) (s₀ : Session σ) :
    Traces s₀.context (d.Reached s₀ s₀.context []) d.traced.read d.read
      (fun v => d.Gave s₀ [v]) (d.Stopped s₀) := by
  refine hd.traces_withRoom fun n n' hn => (hd.traces_value hn []).mono (fun _ h => h) ?_ fun _ h => h
  rintro v m ⟨us, hus, hm⟩
  exact ⟨us, hus, .inl hm⟩

/-- All values, by the tokens that make them up and the end. -/
theorem Flat.traces_readAll (hd : d.Flat) (s₀ : Session σ) :
    Traces s₀.context (d.Reached s₀ s₀.context []) d.traced.readAll d.readAll
      (fun vs => d.Gave s₀ vs) (d.Stopped s₀) := by
  refine (Traces.loop (fun taken m => ∃ us, Spells us taken.reverse ∧
    d.Reached s₀ s₀.context us m) (fun taken => ?_) ?_ []).mono ?_ (fun _ _ h => h) fun _ h => h
  · rintro s hctx ⟨us, hus, hs⟩
    refine (Traces.bind (hd.traces_withRoom fun n n' hn => hd.traces_item hn us) fun item => ?_)
      s hctx hs
    cases item with
    | value v =>
      refine .pure ?_
      rintro m ⟨more, hmore, hm⟩
      refine ⟨us ++ more, ?_, hm⟩
      rw [List.reverse_cons]
      exact hus.append hmore
    | closer b p => exact .stray fun _ h => h.1
    | ended p => exact .pure fun m h => ⟨us, hus, .inr h⟩
  · rintro taken m ⟨us, -, hm⟩
    exact hm.stopped
  · exact fun m hm => ⟨[], .nil, hm⟩

/-- The next value, or the end. -/
theorem Flat.traces_value? (hd : d.Flat) (s₀ : Session σ) :
    Traces s₀.context (d.Reached s₀ s₀.context []) d.traced.value? d.value?
      (fun v? => d.Gave s₀ v?.toList) (d.Stopped s₀) := by
  refine Traces.bind (hd.traces_withRoom fun n n' hn => hd.traces_item hn []) fun item => ?_
  cases item with
  | value v =>
    refine .pure ?_
    rintro m ⟨us, hus, hm⟩
    exact ⟨us, hus, .inl hm⟩
  | closer b p => exact .stray fun _ h => h.1
  | ended p => exact .pure fun m h => ⟨[], .nil, .inr h⟩

/-- The next value again, where a session that has failed asks for no token. -/
theorem Flat.traces_next? (hd : d.Flat) (s₀ : Session σ) :
    Traces s₀.context (d.Reached s₀ s₀.context []) d.traced.next? d.next?
      (fun v? => d.Gave s₀ v?.toList) (d.Stopped s₀) := by
  intro s hctx hs
  cases hfailed : s.failed with
  | true =>
    refine .inl ⟨none, s, Tracked.next?_of_failed hfailed, Tracked.next?_of_failed hfailed, hctx, ?_⟩
    exact ⟨[], .nil, .inl hs⟩
  | false =>
    have hplain : s.plain.failed = false := hfailed
    rcases hd.traces_value? s₀ s hctx hs with ⟨v, u, hx, hy, hu, hv⟩ | ⟨e, u, hx, hy, hu, he⟩
    · exact .inl ⟨v, u, Tracked.next?_of_ok hfailed hx, Tracked.next?_of_ok hplain hy, hu, hv⟩
    · exact .inr ⟨e, { u with failed := true }, Tracked.next?_of_error hfailed hx,
        Tracked.next?_of_error hplain hy, hu, he⟩

theorem Flat.traces_skipTrivia (hd : d.Flat) (s₀ : Session σ) :
    Traces s₀.context (d.Reached s₀ s₀.context []) d.traced.skipTrivia d.skipTrivia
      (fun _ => d.Reached s₀ s₀.context []) (d.Stopped s₀) :=
  fun s => hd.traces_trivia (d.traced.nested s.room) (d.nested s.room) s

/-- Asked if it is at its end, a session asks for no token. -/
theorem Flat.traces_atEnd (hd : d.Flat) (s₀ : Session σ) :
    Traces s₀.context (d.Reached s₀ s₀.context []) d.traced.atEnd d.atEnd
      (fun _ => d.Gave s₀ []) (d.Stopped s₀) :=
  (hd.traces_skipTrivia s₀).bind fun _ =>
    .onCursor (fun _ _ h => ⟨[], .nil, .inl h⟩) fun _ h => h.stopped

end Dialect

/-! ## Calls -/

/-- The values that are given as an answer. -/
def Answer.items : Answer → List Value
  | value v => [v]
  | values vs => vs
  | _ => []

/-- A call with notes and the same call without. -/
theorem Traces.call {d : Dialect σ} {s : Session σ} {x : ReadM (Traced σ) α} {y : ReadM σ α}
    {f : α → Answer}
    (h : Traces s.context (d.Reached s s.context []) x y (fun a => d.Gave s (f a).items)
      (d.Stopped s)) :
    Answer.ofResult f (x (s.traced [])) = .ofResult f (y s) ∧
      (Call.leaves x (s.traced [])).plain = Call.leaves y s ∧
      (Call.leaves y s).context = s.context ∧
      d.Stopped s (Call.leaves x (s.traced [])).memory ∧
      ((∀ e, Answer.ofResult f (y s) ≠ .failed e) →
        d.Gave s (Answer.ofResult f (y s)).items (Call.leaves x (s.traced [])).memory) := by
  have hstart : d.Reached s s.context [] (s.traced []).memory := ⟨.nil _ _, rfl⟩
  rcases h (s.traced []) rfl hstart with ⟨a, u, hx, hy, hu, ha⟩ | ⟨e, u, hx, hy, hu, he⟩
  · have hy : y s = .ok a u.plain := hy
    rw [Call.leaves_of_ok hx, Call.leaves_of_ok hy, hx, hy]
    exact ⟨rfl, rfl, hu, ha.stopped, fun _ => ha⟩
  · have hy : y s = .error e u.plain := hy
    rw [Call.leaves_of_error hx, Call.leaves_of_error hy, hx, hy]
    exact ⟨rfl, rfl, hu, he, fun hok => absurd rfl (hok e)⟩

namespace Dialect

variable {d : Dialect σ} {s : Session σ}

/-- **Notes go unnoticed.** A call of the dialect that takes notes has the same answer and leaves
the same session. The notes tell the run of the call, and what its answer is made of. -/
theorem Flat.call_traced (hd : d.Flat) (s : Session σ) (call : Call) :
    call.answer d.traced (s.traced []) = call.answer d s ∧
      (call.run d.traced (s.traced [])).plain = call.run d s ∧
      (call.run d s).context = s.context ∧
      d.Stopped s (call.run d.traced (s.traced [])).memory ∧
      ((∀ e, call.answer d s ≠ .failed e) →
        d.Gave s (call.answer d s).items (call.run d.traced (s.traced [])).memory) := by
  cases call with
  | read => exact (hd.traces_read s).call
  | readAll => exact (hd.traces_readAll s).call
  | next =>
    have hitems (v? : Option Value) : (Answer.ofOption v?).items = v?.toList := by cases v? <;> rfl
    refine ((hd.traces_next? s).mono (fun _ h => h) (fun v? m h => ?_) fun _ h => h).call
    rw [hitems]
    exact h
  | atEnd => exact (hd.traces_atEnd s).call

/-- **A call** is a run through tokens. If it does not fail, it leaves no more open than was open
before, and the tokens spell the values of its answer. -/
theorem Flat.call_asked (hd : d.Flat) (s : Session σ) (call : Call) :
    d.BreaksOff s.context s.memory (call.asked d s) (call.run d s).memory ∧
      ((∀ e, call.answer d s ≠ .failed e) →
        d.Asked s.context s.memory (call.asked d s) s.context (call.run d s).memory ∧
        ∃ us, Spells us (call.answer d s).items ∧
          ((call.asked d s).filterMap d.tokenAt? = us ∨
            (call.asked d s).filterMap d.tokenAt? = us ++ [.ended])) := by
  obtain ⟨-, hrun, -, hstopped, hgave⟩ := hd.call_traced s call
  rw [← hrun]
  refine ⟨hstopped, fun hok => ?_⟩
  obtain ⟨us, hus, h | h⟩ := hgave hok
  · exact ⟨h.run, us, hus, .inl h.tokens⟩
  · exact ⟨h.run, us, hus, .inr h.tokens⟩

theorem Flat.context_run (hd : d.Flat) (s : Session σ) (call : Call) :
    (call.run d s).context = s.context := (hd.call_traced s call).2.2.1

/-- Calls that do not fail make one run. -/
theorem Flat.asked_trace (hd : d.Flat) {calls : List Call}
    (hok : ∀ answer ∈ Call.answers d s calls, ∀ e, answer ≠ .failed e) :
    d.Asked s.context s.memory (Call.trace d s calls).flatten s.context
        (Call.after d s calls).memory ∧
      (Call.after d s calls).context = s.context := by
  induction calls generalizing s with
  | nil => exact ⟨.nil _ _, rfl⟩
  | cons call calls ih =>
    obtain ⟨hrun, -⟩ := (hd.call_asked s call).2 (hok _ List.mem_cons_self)
    have hcontext := hd.context_run s call
    have hrest := @ih (call.run d s) fun answer h => hok answer (List.mem_cons_of_mem _ h)
    rw [hcontext] at hrest
    exact ⟨hrun.append hrest.1, hrest.2⟩

/-- Over all calls, each token is asked for with the memory that the one before it has left. -/
theorem Flat.linked_trace (hd : d.Flat) (s : Session σ) (calls : List Call) :
    d.Linked s.memory (Call.trace d s calls).flatten (Call.after d s calls).memory := by
  induction calls generalizing s with
  | nil => exact .nil _
  | cons call calls ih => exact (hd.call_asked s call).1.linked.append (ih (call.run d s))

end Dialect

end SExpr
