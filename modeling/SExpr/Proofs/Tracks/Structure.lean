import SExpr.Proofs.ReadBack
import SExpr.Proofs.Tracks.Sparql

/-!
# Two readings of a value

If a dialect follows the rules for tokens, then values, lists and documents are read alike. A list
has a closing bracket, so it is read alike whatever follows; any other value, if what follows ends a
literal.

* **`Dialect.Known`**: the dialects there are, all of which follow the rules.
* **`Dialect.Tracked.nested`**: what is nested is read alike, for any depth.
* **`Dialect.Tracked.readAll`** and the other entry points.
-/

namespace SExpr.Dialect

open ReadM

variable {σ α : Type}

/-- The dialects that there are. -/
inductive Known : {σ : Type} → Dialect σ → Prop where
  | basic : Known basic
  | extended : Known extended
  | scheme : Known scheme
  | commonLisp (options : CommonLisp.Options) : Known (commonLisp options)
  | sparql : Known sparql

/-- Every dialect there is follows the rules for tokens. -/
theorem Known.tracked {d : Dialect σ} : d.Known → d.Tracked
  | .basic => basic_tracked
  | .extended => extended_tracked
  | .scheme => scheme_tracked
  | .commonLisp options => commonLisp_tracked options
  | .sparql => sparql_tracked

namespace Tracked

variable {d : Dialect σ} {t : Twin} {p : Pos} {cs : List Char} {n₁ n₂ : Nested σ}
  {need post : α → List Char → Prop} {f₁ f₂ : Item → ReadM σ α}

/-- **An item and what is made of it.** A value that is not a list has to be followed by what ends a
literal; after the end of the text nothing can be said of the second reading. -/
theorem item_bind (hd : d.Tracked) (hn : Nested.Tracked d.isAtomChar t n₁ n₂)
    (hvalue : ∀ v p mid, mid.length < cs.length →
      Tracks d.isAtomChar t p [] mid (f₁ (.value v)) (f₂ (.value v)) need
        fun a rest => post a rest ∧ (need a rest → t.Stops d.isAtomChar mid))
    (hcloser : ∀ b place p mid, mid.length < cs.length → (∃ c ∈ cs, d.isAtomChar c = false) →
      Tracks d.isAtomChar t p [] mid (f₁ (.closer b place))
        (f₂ (.closer b (place.down t.lines))) need post)
    (hended : ∀ place p, Tracks d.isAtomChar t p [] [] (f₁ (.ended place))
      (f₂ (.ended (place.down t.lines))) need fun a rest => post a rest ∧ ¬ need a rest) :
    Tracks d.isAtomChar t p [] cs (d.item n₁ >>= f₁) (d.item n₂ >>= f₂) need post := by
  rw [Dialect.item_bind, Dialect.item_bind]
  refine (hd.trivia hn _ cs).seq (F := fun _ mid a rest =>
      post a rest ∧ (need a rest → Token.Ahead d.isAtomChar t () mid))
    (fun _ front mid hcs _ => .here ?_) (fun _ _ _ _ _ _ _ h => h.1) fun _ _ _ _ _ _ h hn => h.2 hn
  have hmid : mid <:+ cs := ⟨front, hcs.symm⟩
  -- What is needed after the item has to be told before it: of the token, and of what comes before.
  refine (hd.token hn _ mid).suffix.seq (F := fun token rest a rest' =>
      post a rest' ∧ (need a rest' → Token.Needs d.isAtomChar t token rest))
    (fun token _ rest _ htoken => ?_)
    (fun token rest a rest' htaken _ _ h => ⟨h.1, fun hneed => ?_⟩)
    fun _ _ _ _ _ _ h hn => h.2 hn
  · obtain ⟨htaken, hrest⟩ := htoken
    have hlt (htoken : token ≠ .ended) : rest.length < cs.length :=
      (htaken.length_lt htoken).trans_le hmid.length_le
    cases token with
    | ended =>
      obtain ⟨-, rfl⟩ := htaken.eq_nil
      refine (hended _ _).weaken (fun _ _ _ h => ?_) fun _ _ _ _ h => h
      exact ⟨h.1, fun hneed => absurd hneed h.2⟩
    | opener b =>
      refine (hn.items b _ _ rest).seq (F := fun _ _ => post) (fun vs front' mid' hrest' _ => ?_)
        (fun _ _ _ _ _ _ _ h => ⟨h, fun _ => trivial⟩) fun _ _ _ _ _ _ _ _ => trivial
      have hle : mid'.length ≤ rest.length := by
        rw [hrest', List.length_append]
        omega
      refine (hvalue (.list vs) _ mid' (hle.trans_lt (hlt (by simp)))).weaken
        (fun _ _ _ h => h.1) fun _ _ _ _ h => h
    | closer b =>
      have hbracket : ∃ c ∈ cs, d.isAtomChar c = false := by
        cases htaken with
        | bracket hd =>
          exact ⟨_, hmid.subset List.mem_cons_self, Token.isAtomChar_of_bracketToken?_eq_some hd⟩
      refine (hcloser b _ _ rest (hlt (by simp)) hbracket).weaken (fun _ _ _ h => ?_)
        fun _ _ _ _ h => h
      exact ⟨h, fun _ => trivial⟩
    | value v => exact hvalue v _ rest (hlt (by simp))
  · exact ⟨htaken.1.ne_nil (h.2 hneed), htaken.1.stops htaken.2 (h.2 hneed)⟩

/-- A list is read alike whatever follows. -/
theorem value_opener (hd : d.Tracked) (hn : Nested.Tracked d.isAtomChar t n₁ n₂) {c : Char}
    {b : Bracket} (hc : bracketToken? d.brackets c = some (.opener b)) :
    Tracks d.isAtomChar t p [] (c :: cs) (d.value n₁) (d.value n₂) (fun _ _ => True)
      fun _ _ => True := by
  unfold value
  rw [Dialect.item_bind, Dialect.item_bind]
  have hbracket : Token.AtBracket d.brackets (c :: cs) := by
    intro e he
    cases he
    rw [hc]
    exact Option.some_ne_none _
  have hstops : t.Stops d.isAtomChar (c :: cs) :=
    Twin.stops_of_mem List.mem_cons_self (Token.isAtomChar_of_bracketToken?_eq_some hc)
  -- Nothing is skipped before a bracket, so the token is the bracket.
  refine (hd.trivia hn _ (c :: cs)).bind (fun _ front mid _ hmid => .here ?_)
    fun _ mid _ _ hmid _ _ _ => ?_
  · have hmid := hmid hbracket
    subst hmid
    refine (hd.token hn _ (c :: cs)).bind (fun token _ rest _ htaken => ?_)
      fun token rest _ _ htaken _ _ _ => ?_
    · cases htaken with
      | bracket hc' =>
        rw [hc] at hc'
        cases hc'
        exact (hn.items b _ _ cs).bind (fun _ _ _ _ _ => .pure trivial)
          fun _ _ _ _ _ _ _ _ => trivial
      | value hc' _ =>
        rw [hc] at hc'
        cases hc'
    · cases htaken with
      | bracket hc' =>
        rw [hc] at hc'
        cases hc'
        trivial
      | value hc' _ =>
        rw [hc] at hc'
        cases hc'
  · rw [hmid hbracket]
    exact ⟨List.cons_ne_nil _ _, hstops⟩

/-- A value is read alike if what follows ends a literal, and something is taken for it. -/
theorem value (hd : d.Tracked) (hn : Nested.Tracked d.isAtomChar t n₁ n₂) :
    Tracks d.isAtomChar t p [] cs (d.value n₁) (d.value n₂) (fun _ => t.Stops d.isAtomChar)
      fun _ rest => rest.length < cs.length := by
  refine hd.item_bind hn (fun v p mid hlt => ?_) (fun b place p mid _ _ => ?_) fun place p => ?_
  · exact .pure ⟨hlt, fun h => h⟩
  · exact .stray
  · exact .fail

/-! ## Lists -/

/-- What a round of `items` needs to be followed by. -/
def ItemsNeeds (q : Char → Bool) (t : Twin) : List Value ⊕ List Value → List Char → Prop
  | .inl _, rest => t.Stops q rest
  | .inr _, _ => True

/-- A round of a list takes something. If it closes the list, it has taken a bracket. -/
theorem itemsRound (hd : d.Tracked) (hn : Nested.Tracked d.isAtomChar t n₁ n₂) (b : Bracket)
    (start : Pos) (taken : List Value) (p : Pos) (cs : List Char) :
    Tracks d.isAtomChar t p [] cs (d.itemsRound n₁ b start taken)
      (d.itemsRound n₂ b (start.down t.lines) taken) (ItemsNeeds d.isAtomChar t) fun r rest =>
        rest.length < cs.length ∧ ∀ vs, r = .inr vs → ∃ c ∈ cs, d.isAtomChar c = false := by
  refine hd.item_bind hn (fun v p mid hlt => ?_) (fun b' place p mid hlt hbracket => ?_)
    fun place p => ?_
  · exact .pure ⟨⟨hlt, nofun⟩, fun h => h⟩
  · simp only
    split
    · exact .pure ⟨hlt, fun _ _ => hbracket⟩
    · exact .stray
  · exact .fail

/-- **Lists** are read alike: whatever their items need is there, as the closing bracket comes after
them. -/
theorem items (hd : d.Tracked) (hn : Nested.Tracked d.isAtomChar t n₁ n₂) (b : Bracket)
    (start : Pos) :
    Tracks d.isAtomChar t p [] cs (d.items n₁ b start) (d.items n₂ b (start.down t.lines))
      (fun _ _ => True) fun _ rest =>
        rest.length < cs.length ∧ ∃ c ∈ cs, d.isAtomChar c = false := by
  refine Tracks.loop (τ := Session σ) (P := fun _ cs _ rest =>
      rest.length < cs.length ∧ ∃ c ∈ cs, d.isAtomChar c = false)
    (hd.itemsRound hn b start) ?_ ?_ ?_ ?_ []
  · exact fun _ _ vs _ h => ⟨h.1, h.2 vs rfl⟩
  · intro _ cs _ mid _ rest h hmid _ hrest
    obtain ⟨hlt, c, hc, hq⟩ := hrest
    exact ⟨hlt.trans h.1, c, hmid.subset hc, hq⟩
  · exact fun _ _ _ => trivial
  · intro _ mid _ rest h _ _
    obtain ⟨-, c, hc, hq⟩ := h
    exact Twin.stops_of_mem hc hq

/-- **What is nested** is read alike, however deep it is. -/
theorem nested (hd : d.Tracked) (t : Twin) (room : Nat) :
    Nested.Tracked d.isAtomChar t (d.nested room) (d.nested room) := by
  induction room with
  | zero => exact ⟨fun _ _ _ => .fail, fun _ _ _ _ => .fail⟩
  | succ room ih =>
    refine ⟨fun start p cs => .within ?_ .mark, fun b start p cs => .within ?_ (.list b)⟩
    · exact (hd.value ih).weaken (fun _ _ _ _ => trivial) fun _ _ _ _ h => h
    · exact (hd.items ih b start).weaken (fun _ _ _ _ => trivial) fun _ _ _ _ h => h

/-! ## Entry points -/

theorem withRoom (hd : d.Tracked) {x : Nested σ → ReadM σ α}
    (hx : ∀ n, Nested.Tracked d.isAtomChar t n n →
      Tracks d.isAtomChar t p [] cs (x n) (x n) need post) :
    Tracks d.isAtomChar t p [] cs (d.withRoom x) (d.withRoom x) need post :=
  fun s c hs hc => hx _ (hd.nested t s.room) s c hs hc

theorem read (hd : d.Tracked) :
    Tracks d.isAtomChar t p [] cs d.read d.read (fun _ => t.Stops d.isAtomChar)
      fun _ rest => rest.length < cs.length :=
  hd.withRoom fun _ hn => hd.value hn

/-- **A list** is read alike whatever follows. -/
theorem read_opener (hd : d.Tracked) {c : Char} {b : Bracket}
    (hc : bracketToken? d.brackets c = some (.opener b)) :
    Tracks d.isAtomChar t p [] (c :: cs) d.read d.read (fun _ _ => True) fun _ _ => True :=
  hd.withRoom fun _ hn => hd.value_opener hn hc

/-- What a round of `readAll` needs to be followed by: there is no end before the end. -/
def ReadAllNeeds (q : Char → Bool) (t : Twin) : List Value ⊕ List Value → List Char → Prop
  | .inl _, rest => t.Stops q rest
  | .inr _, _ => False

/-- A round of the reading of all values takes something, unless it finds the end of the text. -/
theorem readAllRound (hd : d.Tracked) (taken : List Value) (p : Pos) (cs : List Char) :
    Tracks d.isAtomChar t p [] cs (d.readAllRound taken) (d.readAllRound taken)
      (ReadAllNeeds d.isAtomChar t) fun r rest =>
        Shrinks cs r rest ∧ (∀ vs, r = .inr vs → rest = []) := by
  refine hd.withRoom (x := fun n => d.item n >>= collect taken) fun n hn => hd.item_bind hn
    (fun v p mid hlt => ?_) (fun b place p mid _ _ => ?_) fun place p => ?_
  · exact .pure ⟨⟨fun _ _ => hlt, nofun⟩, fun h => h⟩
  · exact .stray
  · exact .pure ⟨⟨nofun, fun _ _ => rfl⟩, fun h => h⟩

/-- A document goes on after a value. -/
theorem loop_readAllRound_of_more (hd : d.Tracked) {fault : Option Fault} {s u : Session σ}
    {taken taken' : List Value} (hs : s.cursor.At d.isAtomChar p cs fault)
    (h : d.readAllRound taken s = .ok (.inl taken') u) :
    ReadM.loop d.readAllRound taken s = ReadM.loop d.readAllRound taken' u :=
  HasCursor.loop_of_more (τ := Session σ) (hd.readAllRound (t := { cut := fault }))
    (fun _ _ _ _ h => h.1) hs h

/-- All values are read alike, up to the end of the text. What follows the text is another question.
-/
theorem readAll (hd : d.Tracked) :
    Tracks d.isAtomChar t p [] cs d.readAll d.readAll (fun _ _ => False)
      fun _ rest => rest = [] := by
  refine Tracks.loop (τ := Session σ) (P := fun _ _ _ rest => rest = []) hd.readAllRound
    ?_ ?_ ?_ ?_ []
  · exact fun _ _ vs _ h => h.2 vs rfl
  · exact fun _ _ _ _ _ _ _ _ _ h => h
  · exact fun _ _ h => h
  · exact fun _ _ _ _ _ _ h => h.elim

/-- What `value?` makes of an item. -/
def optional : Item → ReadM σ (Option Value)
  | .value v => return some v
  | .closer b p => stray b p
  | .ended _ => return none

/-- The next value, or none at the end of the text. Which one it is depends on what follows. -/
theorem value? (hd : d.Tracked) :
    Tracks d.isAtomChar t p [] cs d.value? d.value? (fun _ _ => False) fun _ _ => True := by
  -- Nothing is needed to follow, so nothing is said of the second reading if the first one answers.
  refine hd.withRoom (x := fun n => d.item n >>= optional) fun n hn => hd.item_bind hn
    (fun v p mid _ => ?_) (fun b place p mid _ _ => ?_) fun place p => ?_
  · exact .pure ⟨trivial, fun h => h.elim⟩
  · exact .stray
  · exact .pure ⟨trivial, fun h => h⟩

theorem next?_of_failed {s : Session σ} (h : s.failed = true) : d.next? s = .ok none s := if_pos h

theorem next?_of_ok {s s' : Session σ} {v : Option Value} (h : s.failed = false)
    (hvalue : d.value? s = .ok v s') : d.next? s = .ok v s' := by
  simp only [Dialect.next?, h, Bool.false_eq_true, if_false, hvalue]

/-- A session that has not failed fails as `value?` does, and remembers it. -/
theorem next?_of_error {s s' : Session σ} {e : Failure} (h : s.failed = false)
    (hvalue : d.value? s = .error e s') : d.next? s = .error e { s' with failed := true } := by
  simp only [Dialect.next?, h, Bool.false_eq_true, if_false, hvalue]

/-- The calls of the iterator keep to the text, whether or not the session has failed. -/
theorem next? (hd : d.Tracked) :
    Tracks d.isAtomChar t p [] cs d.next? d.next? (fun _ _ => False) fun _ _ => True := by
  intro s c hs hc
  show Outcome d.isAtomChar t p cs _ _ (d.next? s) (d.next? { s with cursor := c })
  rcases Bool.eq_false_or_eq_true s.failed with hfailed | hfailed
  · -- A session that has failed answers without reading.
    rw [next?_of_failed hfailed]
    exact ⟨[], cs, rfl, hs, trivial, fun _ => ⟨c, next?_of_failed hfailed, hc⟩⟩
  · have hvalue := hd.value? s c hs hc
    cases hres : d.value? s with
    | error e s' =>
      rw [hres] at hvalue
      rw [next?_of_error hfailed hres]
      obtain ⟨front, rest, cut, hcs, hat, hsecond⟩ := hvalue
      refine ⟨front, rest, cut, hcs, hat, fun hsame => ?_⟩
      obtain ⟨c', hvalue₂, hc'⟩ := hsecond hsame
      exact ⟨c', next?_of_error (s := { s with cursor := c }) hfailed hvalue₂, hc'⟩
    | ok v s' =>
      rw [hres] at hvalue
      rw [next?_of_ok hfailed hres]
      obtain ⟨front, rest, hcs, hat, -, hsecond⟩ := hvalue
      refine ⟨front, rest, hcs, hat, trivial, fun hgo => ?_⟩
      obtain ⟨c', hvalue₂, hc'⟩ := hsecond hgo
      exact ⟨c', next?_of_ok (s := { s with cursor := c }) hfailed hvalue₂, hc'⟩

/-- The question whether the text is over keeps to the text as well. -/
theorem atEnd (hd : d.Tracked) :
    Tracks d.isAtomChar t p [] cs d.atEnd d.atEnd (fun _ _ => False) fun _ _ => True := by
  have htrivia : Tracks d.isAtomChar t (p.advanceAll []) [] cs d.skipTrivia d.skipTrivia
      (Token.Ahead d.isAtomChar t) fun _ rest => Token.AtBracket d.brackets cs → rest = cs :=
    hd.withRoom fun n hn => hd.trivia hn _ cs
  refine htrivia.bind (fun _ _ mid _ _ => .onCursor ?_) fun _ _ _ _ _ _ _ h => h.elim
  refine .peek (fun _ _ _ _ _ h => h.elim) (fun _ _ _ => .pure trivial) fun _ r hr => ?_
  cases r with
  | none => exact .pure trivial
  | some d => exact .pure_of_not_need hr.not_same (fun h => h) trivial

end Tracked

end SExpr.Dialect
