import SExpr.Proofs.Ensures
import SExpr.Proofs.Token

/-!
# What a reader returns

If all tokens of a dialect that are values are leaves of some kind, then what it reads are lists of
such leaves, nested no deeper than it had room for.

* **`Dialect.Returns`**: every token that is a value is a leaf, as long as what is remembered is in
  order.
* **`Returns.readAll`**, **`Returns.parse`**: the values of a document are built of leaves.
-/

namespace SExpr

variable {σ : Type}

/-! ## Tokens -/

/-- **A basic token**: a bracket or the end, a string, a literal of at least one character, or a
blank taken alone. -/
theorem Lexicon.ensures_basicToken {l : Lexicon σ} {s : Session σ} {Q : Token → Session σ → Prop}
    (hplain : ∀ c t, (∀ v, t ≠ .value v) → Q t { s with cursor := c })
    (hstring : ∀ c d text quote, d ∈ s.cursor.unread.head? → (Quote.ofChar? d).isSome = true →
      Q (.value (.atom (.string text quote))) { s with cursor := c })
    (hliteral : ∀ c text p, text ≠ [] → text.head? = s.cursor.unread.head? →
      (text.all l.isAtomChar = true ∨ ∃ d, text = [d] ∧ Text.isBlank d = true) →
      (∀ d ∈ text.head?, Quote.ofChar? d = none) →
      Ensures (l.atom text p) { s with cursor := c } fun v s' => Q (.value v) s') :
    Ensures l.basicToken s Q := by
  refine ReadM.ensures_here fun p => ?_
  refine (ReadM.ensures_onCursor (Cursor.ensures_peek _)).bind fun r s₁ h₁ => ?_
  obtain ⟨hs₁, rfl, hunread⟩ := h₁
  cases hcs : s.cursor.unread with
  | nil =>
    rw [hs₁]
    exact .pure (hplain _ .ended (by simp))
  | cons c cs =>
    simp only [List.head?_cons]
    cases htoken : bracketToken? l.brackets c with
    | some token =>
      refine (ReadM.ensures_onCursor (Cursor.ensures_take? _)).bind fun _ s₂ h₂ => .pure ?_
      rw [h₂.1, hs₁]
      exact hplain _ token (bracketToken?_ne_value htoken)
    | none =>
      by_cases hquote : (Quote.ofChar? c).isSome = true
      · simp only [hquote, if_true]
        refine Ensures.bind (ReadM.ensures_onCursor (P := fun _ _ => True) fun _ _ _ => trivial) ?_
        intro text s₂ h₂
        rw [h₂.1, hs₁]
        exact .pure (hstring _ c _ _ (by simp [hcs]) hquote)
      · have hquote' : Quote.ofChar? c = none := by simpa using hquote
        simp only [hquote, Bool.false_eq_true, if_false]
        refine (ReadM.ensures_onCursor (Lexeme.ensures_literal _ _)).bind fun text s₂ h₂ => ?_
        obtain ⟨hs₂, htext, hunread₂⟩ := h₂
        rw [hunread, hcs] at htext hunread₂
        by_cases hc : l.isAtomChar c = true
        · -- The literal has at least the character that was looked at.
          rw [List.takeWhile_cons_of_pos hc] at htext
          rw [htext, hs₂, hs₁]
          refine (hliteral _ _ p (by simp) (by simp [hcs]) (.inl ?_) (by simpa using hquote')).bind
            fun v s₃ h₃ => .pure h₃
          rw [List.all_cons, hc, List.all_takeWhile]
          rfl
        · -- A character that is neither a bracket nor part of a literal is a blank.
          have hblank : Text.isBlank c = true := by
            by_cases hblank : Text.isBlank c = true
            · exact hblank
            · exact absurd (isAtomChar_of_bracketToken? (by simpa using hblank) htoken) hc
          rw [List.takeWhile_cons_of_neg hc] at htext
          rw [List.dropWhile_cons_of_neg hc] at hunread₂
          subst htext
          refine (ReadM.ensures_onCursor (Cursor.ensures_take _ _)).bind fun d s₃ h₃ => ?_
          obtain ⟨hs₃, hd, -⟩ := h₃
          rw [hunread₂, List.head?_cons, Option.some.injEq] at hd
          subst hd
          rw [hs₃, hs₂, hs₁]
          exact (hliteral _ [c] p (by simp) (by simp [hcs]) (.inr ⟨c, rfl, hblank⟩)
            (by simpa using hquote')).bind fun v s₄ h₄ => .pure h₄

/-! ## Sessions that go on -/

/-- The later session has as much room as the earlier one, and what it remembers is in order. -/
structure Session.Keeps (inv : σ → Prop) (s s' : Session σ) : Prop where
  context : s'.context = s.context
  limit : s'.limit = s.limit
  memory : inv s'.memory

namespace Session.Keeps

variable {inv : σ → Prop} {s s₁ s₂ : Session σ}

theorem room (h : s.Keeps inv s₁) : s₁.room = s.room := by
  rw [Session.room, Session.room, h.context, h.limit]

theorem refl (hs : inv s.memory) : s.Keeps inv s := ⟨rfl, rfl, hs⟩

theorem of_cursor (h : s₁ = { s with cursor := s₁.cursor }) (hs : inv s.memory) :
    s.Keeps inv s₁ := by
  rw [h]
  exact ⟨rfl, rfl, hs⟩

theorem trans (h₁ : s.Keeps inv s₁) (h₂ : s₁.Keeps inv s₂) : s.Keeps inv s₂ :=
  ⟨h₂.context.trans h₁.context, h₂.limit.trans h₁.limit, h₂.memory⟩

end Session.Keeps

namespace Dialect

open ReadM

/-- As long as what is remembered is in order, it stays so, and every token of the dialect that is a
value is a leaf. Before a token stands none of `starts`, which begin comments. -/
structure Returns (d : Dialect σ) (starts : List Char) (inv : σ → Prop) (leaf : Value → Prop) :
    Prop where
  trivia : ∀ nested s, inv s.memory →
    (∀ p s, inv s.memory → Ensures (nested.datum p) s fun _ s' => s.Keeps inv s') →
    Ensures (d.trivia nested) s fun _ s' => s.Keeps inv s' ∧ Lexeme.Bare starts s'.cursor.unread
  token : ∀ nested s, inv s.memory → Lexeme.Bare starts s.cursor.unread →
    Ensures (d.token nested) s fun t s' => s.Keeps inv s' ∧ ∀ v, t = .value v → leaf v

namespace Returns

variable {d : Dialect σ} {starts : List Char} {inv : σ → Prop} {leaf : Value → Prop}

/-- What is nested is built of leaves, with one level less. -/
def Nests (d : Dialect σ) (inv : σ → Prop) (leaf : Value → Prop) (room : Nat) : Prop :=
  (∀ p s, inv s.memory → Ensures ((d.nested room).datum p) s fun _ s' => s.Keeps inv s') ∧
    ∀ b p s, inv s.memory → Ensures ((d.nested room).items b p) s fun vs s' =>
      s.Keeps inv s' ∧ (Value.list vs).Built leaf room

/-- **One item**, if what is nested in it is as it should be. -/
theorem item (h : d.Returns starts inv leaf) {room : Nat} (hnests : Nests d inv leaf room)
    (s : Session σ) (hs : inv s.memory) :
    Ensures (d.item (d.nested room)) s fun i s' =>
      s.Keeps inv s' ∧ ∀ v, i = .value v → v.Built leaf room := by
  refine (h.trivia _ s hs hnests.1).bind fun _ s₁ h₁ => ?_
  refine ensures_here fun p => (h.token _ s₁ h₁.1.memory h₁.2).bind fun t s₂ h₂ => ?_
  have hkeeps := h₁.1.trans h₂.1
  cases t with
  | ended => exact .pure ⟨hkeeps, by simp⟩
  | closer b => exact .pure ⟨hkeeps, by simp⟩
  | value v =>
    refine .pure ⟨hkeeps, ?_⟩
    rintro w ⟨⟩
    exact .leaf (h₂.2 v rfl)
  | opener b =>
    refine (hnests.2 b p s₂ hkeeps.memory).bind fun vs s₃ h₃ => .pure ⟨hkeeps.trans h₃.1, ?_⟩
    rintro w ⟨⟩
    exact h₃.2

theorem forall_mem_cons {p : Value → Prop} {v : Value} {taken : List Value} (hv : p v)
    (htaken : ∀ w ∈ taken, p w) : ∀ w ∈ v :: taken, p w := by
  intro w hw
  rcases List.mem_cons.mp hw with rfl | hw
  · exact hv
  · exact htaken w hw

/-- **The items of a list**, if what is nested in them is as it should be. -/
theorem items (h : d.Returns starts inv leaf) {room : Nat} (hnests : Nests d inv leaf room)
    (b : Bracket) (start : Pos) (s : Session σ) (hs : inv s.memory) :
    Ensures (d.items (d.nested room) b start) s fun vs s' =>
      s.Keeps inv s' ∧ ∀ v ∈ vs, v.Built leaf room := by
  refine Ensures.loop (fun taken s' => s.Keeps inv s' ∧ ∀ v ∈ taken, v.Built leaf room)
    (fun _ _ _ => stuck_ne_ok) (fun taken s₁ hinv => ?_) ⟨⟨rfl, rfl, hs⟩, by simp⟩
  refine (h.item hnests s₁ hinv.1.memory).bind fun i s₂ h₂ => ?_
  cases i with
  | value v => exact .pure ⟨hinv.1.trans h₂.1, forall_mem_cons (h₂.2 v rfl) hinv.2⟩
  | ended p => exact ensures_fail
  | closer got p =>
    by_cases hgot : got = b
    · simp only [hgot, if_true]
      exact .pure ⟨hinv.1.trans h₂.1, fun v hv => hinv.2 v (List.mem_reverse.mp hv)⟩
    · simp only [hgot, if_false]
      exact ensures_stray

/-- What is nested is as it should be, however much room there is: the room is what the recursion
goes down with. -/
theorem nests (h : d.Returns starts inv leaf) : (room : Nat) → Nests d inv leaf room
  | 0 => ⟨fun _ _ _ => ensures_fail, fun _ _ _ _ => ensures_fail⟩
  | room + 1 => by
    have hnests := h.nests room
    refine ⟨fun p s hs => ensures_within ?_, fun b p s hs => ensures_within ?_⟩
    · refine (h.item hnests { s with context := .mark :: s.context } hs).bind fun i s' h' => ?_
      cases i with
      | value v => exact .pure ⟨by rw [h'.1.context, List.tail_cons], h'.1.limit, h'.1.memory⟩
      | ended p => exact ensures_fail
      | closer b p => exact ensures_stray
    · refine (h.items hnests b p { s with context := .list b :: s.context } hs).mono fun vs s' h' =>
        ⟨⟨?_, h'.1.limit, h'.1.memory⟩, .list h'.2⟩
      rw [h'.1.context, List.tail_cons]

/-- **The values of a document** are built of leaves. -/
theorem readAll (h : d.Returns starts inv leaf) (s : Session σ) (hs : inv s.memory) :
    Ensures d.readAll s fun vs s' => s.Keeps inv s' ∧ ∀ v ∈ vs, v.Built leaf s.room := by
  refine Ensures.loop (fun taken s' => s.Keeps inv s' ∧ ∀ v ∈ taken, v.Built leaf s.room)
    (fun _ _ _ => stuck_ne_ok) (fun taken s₁ hinv => ?_) ⟨⟨rfl, rfl, hs⟩, by simp⟩
  -- Between the values of a document the session is as deep as at its start.
  have hitem : Ensures (d.withRoom d.item) s₁ fun i s' =>
      s₁.Keeps inv s' ∧ ∀ v, i = .value v → v.Built leaf s.room := by
    rw [← hinv.1.room]
    exact h.item (h.nests s₁.room) s₁ hinv.1.memory
  refine hitem.bind fun i s₂ h₂ => ?_
  cases i with
  | value v => exact .pure ⟨hinv.1.trans h₂.1, forall_mem_cons (h₂.2 v rfl) hinv.2⟩
  | closer b p => exact ensures_stray
  | ended p => exact .pure ⟨hinv.1.trans h₂.1, fun v hv => hinv.2 v (List.mem_reverse.mp hv)⟩

/-- The same for a text of its own. -/
theorem parse (h : d.Returns starts inv leaf) {m : σ} (hm : inv m) {text : String}
    {vs : List Value} (hok : d.parse m text = .ok vs) : ∀ v ∈ vs, v.Built leaf 500 := by
  unfold Dialect.parse at hok
  cases hread : d.readAll (.start (.ofString text) m) with
  | error e s' => simp [hread] at hok
  | ok ws s' =>
    simp only [hread, Except.ok.injEq] at hok
    subst hok
    exact (h.readAll _ hm _ _ hread).2

end Returns

end Dialect

end SExpr
