import SExpr.Proofs.Ensures
import SExpr.Proofs.Tracks.Structure

/-!
# Lists end where they end

A list is over with its closing bracket: what comes after it makes no difference, and is not even
looked at. So no list is the beginning of another one.

* **`Dialect.Settles`**: after a bracket has been read, nothing is pending.
* **`Dialect.read_list_append`**: a list is read the same whatever comes after it, and what begins a
  list is not a value.
-/

namespace SExpr

open ReadM

variable {σ : Type} {q : Char → Bool} {p : Pos} {c : Char} {cs : List Char}
  {fault : Option Fault} {s : Session σ}

namespace Session

/-- Nothing has been looked at that was not read. -/
def Settled (s : Session σ) : Prop := s.cursor.pending = []

end Session

/-! ## Brackets -/

/-- To look at a character that is there does not lose the place. -/
theorem ensures_peek_at (hs : s.cursor.At q p (c :: cs) fault) :
    Ensures (onCursor Cursor.peek : ReadM σ (Option Char)) s fun r s' =>
      r = some c ∧ s'.cursor.At q p (c :: cs) fault := by
  intro r s' hok
  obtain ⟨c', hpeek, hc'⟩ := Cursor.peek_at_cons hs
  simp only [onCursor, hpeek] at hok
  cases hok
  exact ⟨rfl, hc'⟩

/-- Nothing is pending after a character that is not part of a literal has been taken. -/
theorem ensures_take?_at (hs : s.cursor.At q p (c :: cs) fault) (hc : q c = false) :
    Ensures (onCursor Cursor.take? : ReadM σ (Option Char)) s fun _ s' => s'.Settled := by
  intro r s' hok
  obtain ⟨c', htake, -, hsettled⟩ := Cursor.take?_at_cons hs
  simp only [onCursor, htake] at hok
  cases hok
  exact hsettled hc

/-- A reading that is tracked ensures where the session stands. -/
theorem Tracks.ensures {α : Type} {x : ReadM σ α} {need post : α → List Char → Prop}
    (hx : Tracks q { cut := fault } p [] cs x x need post) (hs : s.cursor.At q p cs fault) :
    Ensures x s fun a s' => ∃ front rest, cs = front ++ rest ∧
      s'.cursor.At q (p.advanceAll front) rest fault ∧ post a rest :=
  fun _ _ hok => hx.of_ok hs hok

namespace Dialect

/-- After a bracket has been read, nothing is pending. -/
def Settles (d : Dialect σ) : Prop :=
  ∀ {n p c cs fault token} {s : Session σ}, bracketToken? d.brackets c = some token →
    s.cursor.At d.isAtomChar p (c :: cs) fault → Ensures (d.token n) s fun _ s' => s'.Settled

/-- A bracket is looked at and taken, and no more. -/
theorem settles_basicToken {l : Lexicon σ} {token : Token}
    (hc : bracketToken? l.brackets c = some token)
    (hs : s.cursor.At l.isAtomChar p (c :: cs) fault) :
    Ensures l.basicToken s fun _ s' => s'.Settled := by
  refine ensures_here fun p => (ensures_peek_at hs).bind fun r s' hr => ?_
  obtain ⟨rfl, hs'⟩ := hr
  simp only [hc]
  refine (ensures_take?_at hs' ?_).bind fun _ _ h => .pure h
  exact Token.isAtomChar_of_bracketToken?_eq_some hc

theorem ne_of_bracketToken? {brackets : List Bracket} {c e : Char} {token : Token}
    (hc : bracketToken? brackets c = some token) (he : e ∉ ['(', ')', '[', ']']) : c ≠ e := by
  rintro rfl
  exact he (Token.mem_of_bracketToken?_eq_some hc)

/-- The dialects with tokens of their own look for them first, and find a bracket. -/
theorem scheme_settles : scheme.Settles := by
  intro n p c cs fault token s hc hs
  refine (ensures_peek_at hs).bind fun r s' hr => ?_
  obtain ⟨rfl, hs'⟩ := hr
  have hsharp : c ≠ '#' := ne_of_bracketToken? hc (by decide)
  rw [if_neg (by simpa using hsharp)]
  exact settles_basicToken hc hs'

theorem commonLisp_settles (options : CommonLisp.Options) : (commonLisp options).Settles := by
  intro n p c cs fault token s hc hs
  refine ensures_here fun p => (ensures_peek_at hs).bind fun r s' hr => ?_
  obtain ⟨rfl, hs'⟩ := hr
  split
  · next h => exact absurd (Option.some.inj h) (ne_of_bracketToken? hc (by decide))
  · next h => exact absurd (Option.some.inj h) (ne_of_bracketToken? hc (by decide))
  · next h => exact absurd (Option.some.inj h) (ne_of_bracketToken? hc (by decide))
  · exact settles_basicToken hc hs'

theorem sparql_settles : sparql.Settles := by
  intro n p c cs fault token s hc hs
  -- The token is the bracket; what the session remembers of it does not concern the cursor.
  have hplain {s : Session Sparql.Memory} (hs : s.cursor.At sparql.isAtomChar p (c :: cs) fault) :
      Ensures Sparql.plainToken s fun _ s' => s'.Settled := by
    refine (settles_basicToken hc hs).bind fun token s₁ h₁ => ?_
    refine ensures_onMemory.bind fun _ s₂ h₂ => ?_
    have hsettled : s₂.Settled := by
      rw [h₂.2]
      exact h₁
    split
    · refine ensures_onMemory.bind fun _ s₃ h₃ => .pure ?_
      rw [h₃.2]
      exact hsettled
    · exact .pure hsettled
  -- The other tokens begin with characters that are not brackets.
  have hwith (datatype : ReadM Sparql.Memory Iri) :
      Ensures (Sparql.tokenWith datatype) s fun _ s' => s'.Settled := by
    refine ensures_here fun p => (ensures_peek_at hs).bind fun r s' hr => ?_
    obtain ⟨rfl, hs'⟩ := hr
    split
    · next h => exact absurd (Option.some.inj h) (ne_of_bracketToken? hc (by decide))
    · next h => exact absurd (Option.some.inj h) (ne_of_bracketToken? hc (by decide))
    · next h => exact absurd (Option.some.inj h) (ne_of_bracketToken? hc (by decide))
    · exact hplain hs'
  show Ensures (Sparql.tokenIn s.cursor.located) s fun _ s' => s'.Settled
  cases s.cursor.located with
  | nil => exact hwith _
  | cons => exact hwith _

/-- Every dialect there is settles after a bracket. -/
theorem Known.settles {d : Dialect σ} (h : d.Known) : d.Settles := by
  cases h with
  | basic => exact fun hc hs => settles_basicToken hc hs
  | extended => exact fun hc hs => settles_basicToken hc hs
  | scheme => exact scheme_settles
  | commonLisp options => exact commonLisp_settles options
  | sparql => exact sparql_settles

/-! ## Lists -/

section

variable {d : Dialect σ} {n : Nested σ} {b : Bracket}

/-- A closing bracket that has been read as a token was the first character. -/
theorem ensures_token_bracket (hd : d.Tracked) (hsettles : d.Settles)
    (hn : Nested.Tracked d.isAtomChar { cut := fault } n n)
    (hs : s.cursor.At d.isAtomChar p cs fault) :
    Ensures (d.token n) s fun token s' => ∀ b, token = .closer b → s'.Settled := by
  intro token s' hok b hb
  subst hb
  obtain ⟨_, rest, _, _, htaken⟩ := (hd.token hn p cs).ensures hs _ _ hok
  cases htaken with
  | bracket hc => exact hsettles hc hs _ _ hok

/-- Nothing is pending after a closing bracket, whatever came before it. -/
theorem ensures_item_closer (hd : d.Tracked) (hsettles : d.Settles)
    (hn : Nested.Tracked d.isAtomChar { cut := fault } n n)
    (hs : s.cursor.At d.isAtomChar p cs fault) :
    Ensures (d.item n) s fun item s' => ∀ b place, item = .closer b place → s'.Settled := by
  refine ((hd.trivia hn p cs).ensures hs).bind fun _ s₁ h₁ => ensures_here fun place => ?_
  obtain ⟨_, mid, _, hs₁, -⟩ := h₁
  refine (ensures_token_bracket hd hsettles hn hs₁).bind fun token s₂ h₂ => ?_
  cases token with
  | ended => exact .pure nofun
  | opener b =>
    exact Ensures.bind (P := fun _ _ => True) (fun _ _ _ => trivial) fun _ _ _ => .pure nofun
  | closer b => exact .pure fun _ _ _ => h₂ b rfl
  | value v => exact .pure nofun

/-- **A list that has been read** is over: nothing is pending. The rounds keep the session somewhere
in its text, and the last one has taken the closing bracket. -/
theorem ensures_items (hd : d.Tracked) (hsettles : d.Settles)
    (hn : Nested.Tracked d.isAtomChar { cut := fault } n n) (start : Pos)
    (hs : s.cursor.At d.isAtomChar p cs fault) :
    Ensures (d.items n b start) s fun _ s' => s'.Settled := by
  refine Ensures.loop (fun _ s => ∃ p cs, s.cursor.At d.isAtomChar p cs fault)
    (fun _ _ _ => stuck_ne_ok) (fun taken s hinv => ?_) ⟨p, cs, hs⟩
  obtain ⟨p, cs, hs⟩ := hinv
  -- Only a closing bracket ends the loop, and nothing is pending after it.
  have hsettled : Ensures (d.itemsRound n b start taken) s fun r s' =>
      ∀ vs, r = .inr vs → s'.Settled := by
    refine (ensures_item_closer hd hsettles hn hs).bind fun item s₁ h₁ => ?_
    cases item with
    | value v => exact .pure nofun
    | closer got place =>
      simp only
      split
      · exact .pure fun _ _ => h₁ got place rfl
      · exact ensures_stray
    | ended place => exact ensures_fail
  have hat := Tracks.ensures (hd.itemsRound hn b start taken p cs) hs
  intro r s' hok
  obtain ⟨front, rest, -, hs', -⟩ := hat r s' hok
  cases r with
  | inl taken' => exact ⟨_, rest, hs'⟩
  | inr vs => exact hsettled _ s' hok vs rfl

/-- The same at any depth. -/
theorem ensures_nested_items (hd : d.Tracked) (hsettles : d.Settles) (room : Nat) (start : Pos)
    (hs : s.cursor.At d.isAtomChar p cs fault) :
    Ensures ((d.nested room).items b start) s fun _ s' => s'.Settled := by
  cases room with
  | zero => exact ensures_fail
  | succ room => exact ensures_within (ensures_items hd hsettles (hd.nested _ room) start hs)

/-- After a list has been read, nothing is pending. -/
theorem ensures_read_list (hd : d.Tracked) (hsettles : d.Settles)
    (hc : bracketToken? d.brackets c = some (.opener b))
    (hs : s.cursor.At d.isAtomChar p (c :: cs) fault) :
    Ensures d.read s fun _ s' => s'.Settled := by
  have hn := hd.nested { cut := fault } s.room
  show Ensures (d.item (d.nested s.room) >>= _) s fun _ s' => s'.Settled
  rw [item_bind]
  refine ((hd.trivia hn p (c :: cs)).ensures hs).bind fun _ s₁ h₁ => ensures_here fun place => ?_
  obtain ⟨_, mid, _, hs₁, hmid⟩ := h₁
  -- Nothing is skipped before a bracket.
  have hmid : mid = c :: cs := by
    refine hmid fun e he => ?_
    cases he
    rw [hc]
    exact Option.some_ne_none _
  subst hmid
  refine ((hd.token hn _ (c :: cs)).ensures hs₁).bind fun token s₂ h₂ => ?_
  obtain ⟨_, rest, _, hs₂, htaken⟩ := h₂
  cases htaken with
  | bracket hc' =>
    rw [hc] at hc'
    cases hc'
    exact (ensures_nested_items hd hsettles _ place hs₂).bind fun _ _ h => .pure h
  | value hc' _ =>
    rw [hc] at hc'
    cases hc'

end

/-! ## Texts -/

/-- A bracket that opens is found among the brackets of the dialect. -/
theorem bracketToken?_opening {brackets : List Bracket} {b : Bracket} (hb : b ∈ brackets) :
    bracketToken? brackets b.opening = some (.opener b) := by
  unfold bracketToken?
  induction brackets with
  | nil => cases hb
  | cons b' brackets ih =>
    rw [List.findSome?_cons]
    by_cases hb' : b = b'
    · rw [if_pos (by rw [hb'])]
      simp only [hb']
    · have hopen : b.opening ≠ b'.opening := by cases b <;> cases b' <;> simp_all <;> decide
      have hclose : b.opening ≠ b'.closing := by cases b <;> cases b' <;> decide
      rw [if_neg hopen, if_neg hclose]
      exact ih ((List.mem_cons.mp hb).resolve_left hb')

/-- What is read of a list is read of it before anything else, and nothing of that is asked for. -/
theorem read_fresh_append {d : Dialect σ} (hd : d.Known) {b : Bracket} (hb : b ∈ d.brackets)
    {text rest : List Char} {memory : σ} {limit : Nat} {v : Value} {s' : Session σ}
    (hread : d.read (.fresh (b.opening :: text) none memory limit) = .ok v s')
    (hrest : s'.cursor.unread = rest) (more : List Char) (fault : Option Fault) :
    ∃ c front, d.read (.fresh (b.opening :: text ++ more) fault memory limit)
        = .ok v { s' with cursor := c } ∧ b.opening :: text = front ++ rest ∧ c.pending = [] ∧
      c.source = .giving (Pos.start.advanceAll front) (rest ++ more) fault := by
  have hopening := bracketToken?_opening hb
  have hfirst := Session.fresh_at d.isAtomChar (b.opening :: text) none memory limit
  have hsecond := Session.fresh_at d.isAtomChar (b.opening :: text ++ more) fault memory limit
  have htracks := hd.tracked.read_opener (t := { more, fault }) hopening _ _ hfirst hsecond
  rw [hread] at htracks
  obtain ⟨front, rest', htext, hat, -, hread₂⟩ := htracks
  obtain ⟨c, hread₂, hc⟩ := hread₂ (.inr ⟨rfl, trivial⟩)
  have hpending : c.pending = [] :=
    ensures_read_list hd.tracked hd.settles hopening hsecond _ _ hread₂
  have hrest' : rest' = rest := hat.unread.symm.trans hrest
  subst hrest'
  exact ⟨c, front, hread₂, htext, hpending, hc.source hpending⟩

/-- **Lists end where they end.** A list that makes up a text is read the same whatever comes after
it, be it characters or a fault, and of that nothing has been asked for; and what is missing some of
the text is not a value. -/
theorem read_list_append (d : Dialect σ) (hd : d.Known) (b : Bracket) (hb : b ∈ d.brackets)
    (text : List Char) (memory : σ) (limit : Nat) (v : Value) (s' : Session σ)
    (hread : d.read (.fresh (b.opening :: text) none memory limit) = .ok v s')
    (hall : s'.cursor.unread = []) :
    (∀ more fault, ∃ c, d.read (.fresh (b.opening :: text ++ more) fault memory limit)
        = .ok v { s' with cursor := c } ∧ c.pending = [] ∧
      c.source = .giving (Pos.start.advanceAll (b.opening :: text)) more fault) ∧
    ∀ front, front <+: b.opening :: text → front ≠ b.opening :: text →
      ∃ e s'', d.read (.fresh front none memory limit) = .error e s'' := by
  constructor
  · intro more fault
    obtain ⟨c, front, hread₂, htext, hpending, hsource⟩ :=
      read_fresh_append hd hb hread hall more fault
    rw [List.append_nil] at htext
    exact ⟨c, hread₂, hpending, htext ▸ hsource⟩
  · intro front hfront hne
    obtain ⟨more, hmore⟩ := hfront
    cases hres : d.read (.fresh front none memory limit) with
    | error e s'' => exact ⟨e, s'', rfl⟩
    | ok v₁ s₁ =>
      -- What is read of the front is read of the whole text too, but leaves something there.
      cases front with
      | nil =>
        have hfresh := Session.fresh_at d.isAtomChar [] none memory limit
        obtain ⟨_, rest, -, -, hlt⟩ := Tracks.ensures hd.tracked.read hfresh _ _ hres
        simp at hlt
      | cons c front =>
        rw [List.cons_append, List.cons.injEq] at hmore
        obtain ⟨rfl, rfl⟩ := hmore
        obtain ⟨c, _, hread₂, -, hpending, hsource⟩ := read_fresh_append hd hb hres rfl more none
        rw [← List.cons_append, hread₂] at hread
        cases hread
        have hall : c.unread = [] := hall
        rw [Cursor.unread, hpending, hsource] at hall
        have hmore : s₁.cursor.unread ++ more = [] := by
          rwa [Source.rest, Source.giving, Pos.map_fst_locate] at hall
        rw [(List.append_eq_nil_iff.mp hmore).2, List.append_nil] at hne
        exact absurd rfl hne

/-- Closing brackets in a character and in a comment do not end a list. -/
theorem read_list_append_scheme :
    ∃ v s', scheme.read (.fresh "(#\\) #;\")\" a)".toList none () 3) = .ok v s' ∧
      (∀ more fault, ∃ c, scheme.read (.fresh ("(#\\) #;\")\" a)".toList ++ more) fault () 3)
        = .ok v { s' with cursor := c } ∧ c.pending = [] ∧
        c.source = .giving (Pos.start.advanceAll "(#\\) #;\")\" a)".toList) more fault) ∧
      ∀ front, front <+: "(#\\) #;\")\" a)".toList → front ≠ "(#\\) #;\")\" a)".toList →
        ∃ e s'', scheme.read (.fresh front none () 3) = .error e s'' := by
  have hall : (match scheme.read (.fresh "(#\\) #;\")\" a)".toList none () 3) with
      | .ok _ s' => s'.cursor.unread.isEmpty
      | .error _ _ => false) = true := by decide +kernel
  cases hread : scheme.read (.fresh "(#\\) #;\")\" a)".toList none () 3) with
  | error e s' =>
    rw [hread] at hall
    cases hall
  | ok v s' =>
    rw [hread] at hall
    exact ⟨v, s', rfl, read_list_append scheme .scheme .round (by decide)
      "#\\) #;\")\" a)".toList () 3 v s' hread (List.isEmpty_iff.mp hall)⟩

end Dialect

end SExpr
