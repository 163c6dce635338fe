import SExpr.Proofs.Course
import SExpr.Proofs.Progress.Token

/-!
# Reading makes progress

Every item takes characters, whatever stands before it. So all loops of a reader come to an end, and
there are no more values than characters.
-/

namespace SExpr

open HasCursor ReadM Leaves

variable {σ : Type}

namespace Dialect

/-! ## Values -/

/-- How many characters the next item takes at least: one, if there is one. -/
def Item.weight : Item → Nat
  | .ended _ => 0
  | _ => 1

namespace Advances

variable {d : Dialect σ} {n : Nested σ}

/-- **An item takes characters.** -/
theorem item (hd : d.Advances) (hn : n.Shortens) : Spends (d.item n) Item.weight := by
  refine fun cs => (hd.trivia n hn cs).bind fun _ mid hmid => .here fun p => ?_
  refine (hd.token n hn mid).bind fun token rest hrest => ?_
  cases token with
  | ended => exact .pure (hrest.trans hmid)
  | closer b => exact .pure (hrest.trans hmid)
  | value v => exact .pure (hrest.trans hmid)
  | opener b =>
    exact (hn.items b p rest).bind fun vs rest' h =>
      .pure ((Nat.succ_le_succ h).trans (hrest.trans hmid))

/-- A value takes a character at least. -/
theorem value (hd : d.Advances) (hn : n.Shortens) : Spends (d.value n) fun _ => 1 := by
  refine fun cs => (hd.item hn cs).bind fun item rest h => ?_
  cases item with
  | value v => exact .pure h
  | closer b p => exact .stray
  | ended p => exact .throw

/-- A round of a list takes a character at least. -/
theorem itemsRound (hd : d.Advances) (hn : n.Shortens) (b : Bracket) (start : Pos)
    (taken : List Value) : Spends (d.itemsRound n b start taken) goingOn := by
  refine fun cs => (hd.item hn cs).bind fun item rest h => ?_
  cases item with
  | value v => exact .pure h
  | closer got p =>
    show Leaves (if got = b then _ else _) _ _
    split
    · exact .pure ((Nat.le_succ _).trans h)
    · exact .stray
  | ended p => exact .throw

/-- A list puts nothing back. -/
theorem items (hd : d.Advances) (hn : n.Shortens) (b : Bracket) (start : Pos) :
    Shortens (d.items n b start) :=
  .loop (τ := Session σ) (fun taken => (hd.itemsRound hn b start taken).shortens) []

/-- What is nested puts back no more than it takes, by induction on the room for it. -/
theorem nested (hd : d.Advances) (room : Nat) : (d.nested room).Shortens := by
  induction room with
  | zero => exact ⟨fun _ _ => .throw, fun _ _ _ => .throw⟩
  | succ room ih =>
    exact ⟨fun _ cs => .within ((hd.value ih).shortens cs),
      fun b p cs => .within (hd.items ih b p cs)⟩

theorem withRoom {α : Type} {x : Nested σ → ReadM σ α} {weight : α → Nat} (hd : d.Advances)
    (hx : ∀ n : Nested σ, n.Shortens → Spends (x n) weight) : Spends (d.withRoom x) weight :=
  fun cs s hs => hx _ (hd.nested s.room) cs s hs

/-- A round of the reading of all values takes a character, unless it is the last. -/
theorem readAllRound (hd : d.Advances) (taken : List Value) :
    Spends (d.readAllRound taken) goingOn := by
  refine fun cs => (hd.withRoom (fun n hn => hd.item hn) cs).bind fun item rest h => ?_
  cases item with
  | value v => exact .pure h
  | closer b p => exact .stray
  | ended p => exact .pure h

/-- The next value takes a character, if there is one. -/
theorem value? (hd : d.Advances) : Spends d.value? fun r => r.toList.length := by
  refine fun cs => (hd.withRoom (fun n hn => hd.item hn) cs).bind fun item rest h => ?_
  cases item with
  | value v => exact .pure h
  | closer b p => exact .stray
  | ended p => exact .pure h

end Advances

/-! ## Loops -/

/-- Reading value by value has given one value in each of its rounds but the last. -/
theorem length_of_rounds {d : Dialect σ} {k : Nat} {taken : List Value} {s : Session σ}
    {r : EStateM.Result Failure (Session σ) (List Value × Option Failure)}
    (h : Rounds d.streamRound k taken s r) :
    ∃ vs stop u, r = .ok (vs, stop) u ∧ vs.length = taken.length + k := by
  induction h with
  | @more taken taken' s t k r hround _ ih =>
    obtain ⟨vs, stop, u, rfl, hlength⟩ := ih
    -- The value of this round is one of those taken before the others.
    obtain ⟨v, rfl, -⟩ := of_streamRound hround
    rw [List.length_cons] at hlength
    exact ⟨vs, stop, u, rfl, by omega⟩
  | @done taken s u a hround =>
    obtain ⟨v, t, -, hcase⟩ | ⟨stop, t, hcase⟩ := streamRound_cases d taken s
    · cases hround.symm.trans hcase
    · cases hround.symm.trans hcase
      exact ⟨_, stop, u, rfl, List.length_reverse ..⟩
  | @failed taken s u e hround =>
    obtain ⟨v, t, -, hcase⟩ | ⟨stop, t, hcase⟩ := streamRound_cases d taken s <;>
      cases hround.symm.trans hcase

/-- Reading value by value comes to an end. -/
theorem Advances.ends_streamRound {d : Dialect σ} (hd : d.Advances) (taken : List Value)
    (s : Session σ) : Ends d.streamRound taken s := by
  refine exists_rounds (fun s => s.cursor.unread.length) (fun taken s taken' t hround => ?_) taken s
    (Nat.le_of_eq s.cursor.length_located.symm)
  obtain ⟨v, -, hvalue⟩ := of_streamRound hround
  exact hd.value? _ s rfl _ _ hvalue

/-- **Reading always makes progress.** In any session of any dialect, whatever has been put back, an
item that is a value or a closing bracket leaves fewer characters than there were, and what stands
before an item is skipped without leaving more. So there is an end to reading all values, to reading
value by value, to the items of a list, to what stands before a token in Scheme, to each piece of a
token, and to datatypes within datatypes, even without a bound on rounds; and reading value by value
gives no more values than there are characters. -/
theorem Known.progress {d : Dialect σ} (hd : d.Known) :
    (∀ room s item s', d.item (d.nested room) s = .ok item s' → (∀ p, item ≠ .ended p) →
      s'.cursor.unread.length < s.cursor.unread.length) ∧
    (∀ room s s', d.trivia (d.nested room) s = .ok () s' →
      s'.cursor.unread.length ≤ s.cursor.unread.length) ∧
    (∀ taken s, Ends d.readAllRound taken s) ∧
    (∀ taken s, Ends d.streamRound taken s) ∧
    (∀ room b start taken s, Ends (d.itemsRound (d.nested room) b start) taken s) ∧
    (∀ room s, Ends (Scheme.triviaRound (Dialect.scheme.nested room)) () s) ∧
    Lexeme.LoopsEnd ∧
    (∀ s, Sparql.token s = Sparql.tokenWith (Sparql.datatype Sparql.token) s) ∧
    ∀ s, ∃ vs stop s', d.stream s = .ok (vs, stop) s' ∧ vs.length ≤ s.cursor.unread.length := by
  have hd := hd.advances
  refine ⟨fun room s item s' h hitem => ?_, fun room s s' h => ?_,
    ends_of_spends hd.readAllRound, hd.ends_streamRound,
    fun room b start => ends_of_spends (hd.itemsRound (hd.nested room) b start),
    fun room => ends_of_spends (Scheme.spends_triviaRound (scheme_advances.nested room)) (),
    Lexeme.loopsEnd, Sparql.token_eq, fun s => ?_⟩
  · have hspends := hd.item (hd.nested room) _ s rfl item s' h
    cases item with
    | ended p => exact absurd rfl (hitem p)
    | value v => exact hspends
    | closer b p => exact hspends
  · exact hd.trivia _ (hd.nested room) _ s rfl () s' h
  · -- One value comes from each round but the last, and each round takes a character.
    obtain ⟨k, hk, hrounds⟩ := hd.ends_streamRound [] s
    obtain ⟨vs, stop, s', hstream, hlength⟩ := length_of_rounds hrounds
    rw [List.length_nil, Nat.zero_add] at hlength
    exact ⟨vs, stop, s', hstream, hlength.trans_le hk⟩

/-- The result of reading an item is a value. -/
def Item.isValue : EStateM.Result Failure (Session σ) Item → Bool
  | .ok (.value _) _ => true
  | _ => false

/-- The value that has been read, if one has. -/
theorem Item.exists_of_isValue {r : EStateM.Result Failure (Session σ) Item}
    (h : Item.isValue r = true) : ∃ v s', r = .ok (.value v) s' := by
  unfold Item.isValue at h
  split at h
  · exact ⟨_, _, rfl⟩
  · cases h

/-- A sharp sign was put in front of the text, with which it is a comment before the value. -/
theorem Known.progress_comment :
    Known Dialect.scheme ∧ ∃ (s s' : Session Unit) (v : Value),
      s.cursor.pending = [('#', .start)] ∧ s.cursor.unread = "#;a \"b\")".toList ∧
      Dialect.scheme.item (Dialect.scheme.nested 1) s = .ok (.value v) s' ∧
      s'.cursor.unread.length < s.cursor.unread.length ∧
      ∃ vs stop u, Dialect.scheme.stream s = .ok (vs, stop) u ∧
        vs.length ≤ s.cursor.unread.length := by
  obtain ⟨hitem, -, -, -, -, -, -, -, hstream⟩ := Known.progress Known.scheme
  obtain ⟨v, s', h⟩ : ∃ v s', Dialect.scheme.item (Dialect.scheme.nested 1)
      { Session.start (.ofString ";a \"b\")") () with cursor.pending := [('#', .start)] } =
        .ok (.value v) s' := Item.exists_of_isValue (by decide +kernel)
  exact ⟨.scheme, _, s', v, rfl, by decide, h, hitem 1 _ _ _ h nofun, hstream _⟩

end Dialect

end SExpr
