import SExpr.Proofs.Concatenation
import SExpr.Proofs.Elsewhere
import SExpr.Proofs.EntryPoints

/-!
# Values one after the other

A text that can be read as a document is a sequence of values, and then there are only blanks and
comments. It is the same sequence wherever the text stands: as a document, or between brackets, if
there is a newline before the closing one.

* **`Dialect.Document`**: the text is read as the given values.
* **`Dialect.YieldsAll`**: a sequence of values, in terms of the text.
* **`Document.yieldsAll`**: a document is such a sequence elsewhere too.
* **`YieldsAll.items`**, **`YieldsAll.document`**: the sequence makes up a list, or a document.
-/

namespace SExpr.Dialect

open ReadM

variable {σ : Type} {d : Dialect σ}

/-- With `m` remembered and so many levels allowed, the text is read as the values. -/
def Document (d : Dialect σ) (m : σ) (limit : Nat) (text : List Char) (vs : List Value) : Prop :=
  ∃ u, d.readAll (.fresh text none m limit) = .ok vs u

/-- Before `cs` and with `m` remembered come the values, one after the other; then `rest` is left
and `m'` is remembered. -/
inductive YieldsAll (d : Dialect σ) (n : Nested σ) :
    σ → List Char → List Value → σ → List Char → Prop where
  | nil (m : σ) (cs : List Char) : YieldsAll d n m cs [] m cs
  | cons {m m₁ m' : σ} {cs mid rest : List Char} {v : Value} {vs : List Value}
      (h : Yields (d.item n) m cs (.value v) m₁ mid) (hlt : mid.length < cs.length)
      (hs : YieldsAll d n m₁ mid vs m' rest) : YieldsAll d n m cs (v :: vs) m' rest

/-! ## One value -/

/-- A value is an item. -/
theorem yields_item_of_value {n : Nested σ} {m m' : σ} {cs rest : List Char} {v : Value}
    (h : Yields (d.value n) m cs v m' rest) : Yields (d.item n) m cs (.value v) m' rest := by
  intro s hm hs
  obtain ⟨c', hc', h⟩ := h s hm hs
  refine ⟨c', hc', ?_⟩
  unfold value at h
  cases hitem : d.item n s with
  | error e u =>
    rw [bind_of_error hitem] at h
    cases h
  | ok item u =>
    rw [bind_of_ok hitem] at h
    cases item with
    | value w =>
      cases h
      rfl
    | closer b place => cases h
    | ended place => cases h

/-! ## Documents -/

/-- A document has a course that ends where the text does. -/
theorem Document.course {m : σ} {limit : Nat} {text : List Char} {vs : List Value} (hd : d.Known)
    (h : d.Document m limit text vs) : ∃ u, d.Course (.fresh text none m limit) vs none u := by
  obtain ⟨u, h⟩ := h
  have hs := Session.fresh_at d.isAtomChar text none m limit
  obtain ⟨vs', stop, u', hcourse⟩ := exists_course hd.tracked hs
  have hread := (hcourse.readAll hd.tracked hs).symm.trans h
  cases stop with
  | none =>
    cases hread
    exact ⟨u, hcourse⟩
  | some e => cases hread

/-- What can be read of a text can be read elsewhere, also if there is a newline after it, and
whatever follows. -/
theorem Course.yieldsAll (hd : d.Known) (hrepeats : d.Repeats) {s u : Session σ} {vs : List Value}
    (h : d.Course s vs none u) {p : Pos} {cs : List Char} (hs : s.cursor.At d.isAtomChar p cs none)
    {room : Nat} (hroom : s.room ≤ room) {more : List Char}
    (hmore : more = [] ∨ ∃ text, more = '\n' :: text) :
    ∃ rest, YieldsAll d (d.nested room) s.memory (cs ++ more) vs u.memory (rest ++ more) ∧
      Yields (d.trivia (d.nested room)) u.memory rest () u.memory [] := by
  generalize hstop : (none : Option Failure) = stop at h
  induction h generalizing p cs with
  | failed h => cases hstop
  | @ended s u h =>
    have hround : d.readAllRound [] s = .ok (.inr []) u := by
      rw [readAllRound_eq_value?, h]
      rfl
    obtain ⟨htrivia, hunread, -⟩ := ensures_readAllRound hd [] hs _ _ hround [] rfl
    obtain ⟨_, _, -, hu, -⟩ :=
      (hd.tracked.trivia (hd.tracked.nested {} s.room) p cs).of_ok hs htrivia
    have hmemory : u.memory = s.memory := by
      rw [hd.trivia_eq (hd.uniform.nested s.room) htrivia]
    have hyields := (hrepeats.trivia (hrepeats.nested hroom)).yields_of_ok hs.before
      htrivia ⟨hunread, hu.fault⟩
    rw [← hmemory] at hyields ⊢
    exact ⟨cs, .nil _ _, hyields⟩
  | @more s t u v vs stop h _ ih =>
    -- The value ends before the newline, so it is read alike; and then it can be read elsewhere.
    obtain ⟨c, hc⟩ := Cursor.exists_at d.isAtomChar (p.down 0) (cs ++ more) none
    have htracks := hd.tracked.read (t := { more }) s c hs hc
    rw [read_of_some h] at htracks
    obtain ⟨front, mid, rfl, ht, hlt, hsecond⟩ := htracks
    have hgo : ({ more } : Twin).Same ∨ ({ more } : Twin).cut = none ∧
        ({ more } : Twin).Stops d.isAtomChar mid := by
      obtain rfl | ⟨text, rfl⟩ := hmore
      · exact .inl ⟨rfl, rfl, rfl⟩
      · exact .inr ⟨rfl, '\n', by simp, Lexicon.isAtomChar_newline⟩
    obtain ⟨c', hread, hc'⟩ := hsecond hgo
    have hyields := (hrepeats.value (hrepeats.nested hroom)).yields_of_ok
      (s := { s with cursor := c }) hc.before hread hc'.before
    have htroom : t.room ≤ room := by
      rw [hd.uniform.value?_keeps.eq_moved_of_ok h]
      exact hroom
    obtain ⟨rest, hvs, htrivia⟩ := ih ht htroom hstop
    refine ⟨rest, .cons (yields_item_of_value hyields) ?_ hvs, htrivia⟩
    rw [List.length_append, List.length_append]
    exact Nat.add_lt_add_right hlt _

/-- **A document is the same sequence of values elsewhere**, with no fewer levels allowed. -/
theorem Document.yieldsAll (hd : d.Known) (hrepeats : d.Repeats) {m : σ} {limit : Nat}
    {text : List Char} {vs : List Value} (h : d.Document m limit text vs) {room : Nat}
    (hroom : limit ≤ room) {more : List Char} (hmore : more = [] ∨ ∃ cs, more = '\n' :: cs) :
    ∃ m' rest, YieldsAll d (d.nested room) m (text ++ more) vs m' (rest ++ more) ∧
      Yields (d.trivia (d.nested room)) m' rest () m' [] := by
  obtain ⟨u, hcourse⟩ := h.course hd
  have hs := Session.fresh_at d.isAtomChar text none m limit
  obtain ⟨rest, hvs, htrivia⟩ := hcourse.yieldsAll hd hrepeats hs hroom hmore
  exact ⟨u.memory, rest, hvs, htrivia⟩

/-- What is left after the values goes on after a newline. -/
theorem Known.yields_trivia_newline (hd : d.Known) (hrepeats : d.Repeats) {room : Nat} {m m' : σ}
    {cs text rest : List Char} (h : Yields (d.trivia (d.nested room)) m cs () m [])
    (hmore : Yields (d.trivia (d.nested room)) m text () m' rest) :
    Yields (d.trivia (d.nested room)) m (cs ++ '\n' :: text) () m' rest := by
  let s : Session σ := .fresh cs none m room
  have hs := Session.fresh_at d.isAtomChar cs none m room
  obtain ⟨c, hc⟩ := Cursor.exists_at d.isAtomChar .start (cs ++ '\n' :: text) none
  obtain ⟨c₁, hc₁, halone⟩ := h s rfl hs.before
  obtain ⟨c', hc', hgoes⟩ := hd.trivia_goesOn (fun t => hd.tracked.nested t room)
    (hd.uniform.nested room) _ _ s c _ hs hc halone hc₁.unread
  obtain ⟨c₂, hc₂, hmore⟩ := hmore { s with cursor := c' } rfl hc'.before
  exact (hrepeats.trivia (hrepeats.nested le_rfl)).yields_of_ok (s := { s with cursor := c })
    hc.before (hgoes.trans hmore) hc₂

/-! ## Lists and documents -/

namespace YieldsAll

variable {n : Nested σ} {m m' : σ} {cs rest : List Char} {vs : List Value}

/-- The values of a sequence are taken round by round. -/
theorem loop_itemsRound (h : YieldsAll d n m cs vs m' rest) {start : Pos} {taken ws : List Value}
    {b : Bracket} {m₁ : σ} {text : List Char}
    (hend : Yields (ReadM.loop (d.itemsRound n b start) (vs.reverse ++ taken)) m' rest ws m₁ text) :
    Yields (ReadM.loop (d.itemsRound n b start) taken) m cs ws m₁ text := by
  induction h generalizing taken with
  | nil m cs => exact hend
  | @cons m m₁ m' cs mid rest v vs h hlt _ ih =>
    refine .loop_more (h.bind (.pure _ _ _)) hlt (ih ?_)
    rwa [List.reverse_cons, List.append_assoc] at hend

/-- **The values up to a closing bracket** are the items of a list. -/
theorem items (br : d.Brackets) (h : YieldsAll d n m cs vs m' rest) {text : List Char}
    (htrivia : Yields (d.trivia n) m' rest () m' (')' :: text)) (start : Pos) :
    Yields (d.items n .round start) m cs vs (br.closes m') text := by
  refine h.loop_itemsRound (.loop_done ?_)
  unfold itemsRound
  rw [item_bind, List.append_nil]
  refine htrivia.bind (.here fun p => (br.closer n m' text).bind ?_)
  show Yields (pure (Sum.inr vs.reverse.reverse) : ReadM σ (List Value ⊕ List Value)) _ _ _ _ _
  rw [List.reverse_reverse]
  exact .pure _ _ _

/-- A document is read round by round, up to what its rounds leave. -/
theorem loop_readAllRound (br : d.Brackets) {room : Nat}
    (h : YieldsAll d (d.nested room) m cs vs m' rest)
    (htrivia : Yields (d.trivia (d.nested room)) m' rest () m' []) (s : Session σ)
    (hroom : s.room = room) (hm : s.memory = m) (hs : s.cursor.Before cs) (taken : List Value) :
    ∃ u, ReadM.loop d.readAllRound taken s = .ok (taken.reverse ++ vs) u := by
  -- The induction is on the sequence: no value is left, or one more is taken.
  induction h generalizing s taken with
  | nil m cs =>
    have hround : Yields (d.item (d.nested room) >>= collect taken) m cs (.inr taken.reverse) m
        [] := by
      rw [item_bind]
      exact htrivia.bind (.here fun p => (br.ended _ m).bind (.pure _ _ _))
    obtain ⟨c, -, hround⟩ := hround s hm hs
    rw [← hroom, ← readAllRound_eq] at hround
    rw [List.append_nil]
    exact ⟨_, HasCursor.loop_of_done (τ := Session σ) hround⟩
  | @cons m m₁ m' cs mid rest v vs h hlt _ ih =>
    have hround : Yields (d.item (d.nested room) >>= collect taken) m cs (.inl (v :: taken)) m₁
        mid := h.bind (.pure _ _ _)
    obtain ⟨c, hc, hround⟩ := hround s hm hs
    rw [← hroom, ← readAllRound_eq] at hround
    obtain ⟨u, hloop⟩ := ih htrivia { s with cursor := c, memory := m₁ } hroom rfl hc (v :: taken)
    rw [List.reverse_cons, List.append_assoc, List.singleton_append] at hloop
    refine ⟨u, loop_ok_more (fun _ _ _ => stuck_ne_ok) (·.cursor.located) hround ?_ hloop⟩
    rw [Cursor.length_located, Cursor.length_located, hc.unread, hs.unread]
    exact hlt

/-- **The values up to the end** are a document. -/
theorem document (br : d.Brackets) {limit : Nat} (h : YieldsAll d (d.nested limit) m cs vs m' rest)
    (htrivia : Yields (d.trivia (d.nested limit)) m' rest () m' []) : d.Document m limit cs vs :=
  h.loop_readAllRound br htrivia (.fresh cs none m limit) rfl rfl (Session.fresh_before ..) []

end YieldsAll

end SExpr.Dialect
