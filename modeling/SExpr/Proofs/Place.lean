import SExpr.Cursor
import SExpr.Proofs.Iterator

/-!
# Where a cursor stands

A cursor that has been moved only by reading keeps its books: the characters that it still has to
deliver are the rest of the text, each with its own place, and its own place is that of the first of
them. What is pending is at most one character that was looked at, and before it what was put back.

* **`Cursor.At`**: the cursor stands at a place before some text.
* **`peek_at_cons`**, **`take?_at_cons`**, **`pushBack_at`**: what the moves of a cursor do to that.
-/

namespace SExpr

/-! ## Places -/

namespace Pos

/-- The same column, so many lines further down. -/
def down (n : Nat) (p : Pos) : Pos := { p with line := p.line + n }

/-- To advance does not depend on how many lines come before. -/
theorem advance_down (n : Nat) (p : Pos) (c : Char) :
    (p.down n).advance c = (p.advance c).down n := by
  unfold advance
  split
  · show (⟨p.line + n + 1, 0⟩ : Pos) = ⟨p.line + 1 + n, 0⟩
    rw [Nat.add_right_comm]
  · rfl

theorem advanceAll_append (p : Pos) (xs ys : List Char) :
    p.advanceAll (xs ++ ys) = (p.advanceAll xs).advanceAll ys := List.foldl_append ..

/-- A text takes a place forward by the same lines and columns from further down. -/
theorem advanceAll_down (n : Nat) (p : Pos) (cs : List Char) :
    (p.down n).advanceAll cs = (p.advanceAll cs).down n := by
  induction cs generalizing p with
  | nil => rfl
  | cons c cs ih =>
    show ((p.down n).advance c).advanceAll cs = ((p.advance c).advanceAll cs).down n
    rw [advance_down, ih]

theorem map_fst_locate (p : Pos) (cs : List Char) : (p.locate cs).map Prod.fst = cs := by
  induction cs generalizing p with
  | nil => rfl
  | cons c cs ih => exact congrArg (List.cons c) (ih (p.advance c))

/-- A step to the left undoes a step over any character but a newline. -/
theorem back_advance {c : Char} (hc : c ≠ '\n') (p : Pos) : (p.advance c).back = p := by
  unfold advance
  rw [if_neg hc]
  rfl

/-- On one line, the column goes up by the length of the text. -/
theorem advanceAll_of_not_mem {cs : List Char} (hline : '\n' ∉ cs) (p : Pos) :
    p.advanceAll cs = { p with col := p.col + cs.length } := by
  induction cs generalizing p with
  | nil => rfl
  | cons c cs ih =>
    obtain ⟨hc, hcs⟩ := not_or.mp (mt List.mem_cons.mpr hline)
    show (p.advance c).advanceAll cs = _
    rw [ih hcs, advance, if_neg (Ne.symm hc), List.length_cons, Nat.add_assoc, Nat.add_comm 1]

end Pos

/-! ## What a move makes of the next character -/

namespace Cursor

section Moves

variable {c c' : Cursor} {e : Failure}

theorem peek_of_fill (h : fill c = .ok () c') :
    peek c = .ok (c'.pending.head?.map Prod.fst) c' := by
  simp only [peek, Bind.bind, EStateM.bind, h, get, getThe, MonadStateOf.get, EStateM.get,
    Pure.pure, EStateM.pure]

theorem peek_of_fill_error (h : fill c = .error e c') : peek c = .error e c' := by
  simp only [peek, Bind.bind, EStateM.bind, h]

/-- To take the next character removes it from what is pending and moves on past it. -/
theorem take?_of_fill {d : Char} {p : Pos} {es : List (Char × Pos)} (h : fill c = .ok () c')
    (hpending : c'.pending = (d, p) :: es) :
    take? c = .ok (some d) { c' with pending := es, nextPos := p.advance d } := by
  simp only [take?, Bind.bind, EStateM.bind, h, get, getThe, MonadStateOf.get, EStateM.get,
    hpending, set, MonadStateOf.set, EStateM.set, Pure.pure, EStateM.pure]

theorem take?_of_fill_nil (h : fill c = .ok () c') (hpending : c'.pending = []) :
    take? c = .ok none c' := by
  simp only [take?, Bind.bind, EStateM.bind, h, get, getThe, MonadStateOf.get, EStateM.get,
    hpending, Pure.pure, EStateM.pure]

theorem take?_of_fill_error (h : fill c = .error e c') : take? c = .error e c' := by
  simp only [take?, Bind.bind, EStateM.bind, h]

theorem take_of_take? {d : Char} (awaited : Awaited) (h : take? c = .ok (some d) c') :
    take awaited c = .ok d c' := by
  simp only [take, here, Bind.bind, EStateM.bind, h, Pure.pure, EStateM.pure]

/-- If nothing comes where a character has to, that is the error, at the place of the cursor. -/
theorem take_of_take?_none (awaited : Awaited) (h : take? c = .ok none c') :
    take awaited c = .error ⟨.endOfInput awaited, c.pos⟩ c' := by
  simp only [take, here, Bind.bind, EStateM.bind, h]
  rfl

theorem take_of_take?_error (awaited : Awaited) (h : take? c = .error e c') :
    take awaited c = .error e c' := by
  simp only [take, here, Bind.bind, EStateM.bind, h]

theorem atEnd_of_peek {r : Option Char} (h : peek c = .ok r c') :
    atEnd c = .ok r.isNone c' := by
  simp only [atEnd, Bind.bind, EStateM.bind, h, Pure.pure, EStateM.pure]

theorem atEnd_of_peek_error (h : peek c = .error e c') : atEnd c = .error e c' := by
  simp only [atEnd, Bind.bind, EStateM.bind, h]

end Moves

end Cursor

/-! ## Cursors -/

/-- The cursor stands at `p` before `cs`, after which its source breaks off if `fault` says so. Only
the last of the characters that are pending may be outside of the class `q`: the others were put
back. -/
structure Cursor.At (q : Char → Bool) (p : Pos) (cs : List Char) (fault : Option Fault)
    (c : Cursor) : Prop where
  located : c.located = p.locate cs
  broken : c.source.broken = fault.map (·, p.advanceAll cs)
  next : c.pending = [] → c.nextPos = p
  ahead : ∀ e ∈ c.pending.dropLast, q e.1 = true

theorem Cursor.At.fault {q : Char → Bool} {p : Pos} {cs : List Char} {fault : Option Fault}
    {c : Cursor} (h : c.At q p cs fault) : c.source.fault = fault := by
  rw [Source.fault, h.broken]
  cases fault <;> rfl

namespace Cursor

variable {q : Char → Bool} {p : Pos} {cs : List Char} {fault : Option Fault} {c : Cursor}

theorem map_fst_located (c : Cursor) : c.located.map Prod.fst = c.unread := List.map_append

/-- A cursor over a source that gives the text stands before it. -/
theorem at_giving (q : Char → Bool) (p : Pos) (cs : List Char) (fault : Option Fault) :
    ({ source := .giving p cs fault, nextPos := p } : Cursor).At q p cs fault where
  located := rfl
  broken := rfl
  next _ := rfl
  ahead := by simp

theorem exists_at (q : Char → Bool) (p : Pos) (cs : List Char) (fault : Option Fault) :
    ∃ c : Cursor, c.At q p cs fault := ⟨_, at_giving q p cs fault⟩

/-- Where nothing is pending, all that the cursor stands before comes from the source. -/
theorem At.source (h : c.At q p cs fault) (hpending : c.pending = []) :
    c.source = .giving p cs fault := by
  have hlocated := h.located
  have hbroken := h.broken
  rw [Cursor.located, hpending, List.nil_append] at hlocated
  cases hsource : c.source with
  | mk located broken =>
    rw [hsource] at hlocated hbroken
    rw [show located = p.locate cs from hlocated,
      show broken = fault.map (·, p.advanceAll cs) from hbroken]
    rfl

/-- The characters that are still to be read are the text that the cursor stands before. -/
theorem At.unread (h : c.At q p cs fault) : c.unread = cs := by
  rw [← map_fst_located, h.located, Pos.map_fst_locate]

/-- What is pending first is the next character. -/
theorem At.head_pending {e : Char × Pos} {es : List (Char × Pos)} (h : c.At q p cs fault)
    (hpending : c.pending = e :: es) : ∃ d ds, cs = d :: ds ∧ e = (d, p) := by
  have hlocated := h.located
  rw [Cursor.located, hpending, List.cons_append] at hlocated
  cases cs with
  | nil => cases hlocated
  | cons d ds => exact ⟨d, ds, rfl, (List.cons.inj hlocated).1⟩

/-- The place of the cursor is that of the text, whether or not a character is pending. -/
theorem At.pos (h : c.At q p cs fault) : c.pos = p := by
  unfold Cursor.pos
  cases hpending : c.pending with
  | nil => exact h.next hpending
  | cons e es =>
    obtain ⟨d, ds, -, rfl⟩ := h.head_pending hpending
    rfl

theorem At.pending_eq_nil (h : c.At q p [] fault) : c.pending = [] :=
  (List.append_eq_nil_iff.mp h.located).1

/-- Before a character, `fill` makes it pending if it was not. -/
theorem fill_at_cons {d : Char} {ds : List Char} (h : c.At q p (d :: ds) fault) :
    ∃ c' es, fill c = .ok () c' ∧ c'.At q p (d :: ds) fault ∧ c'.pending = (d, p) :: es := by
  cases hpending : c.pending with
  | cons e es =>
    obtain ⟨_, _, ⟨⟩, rfl⟩ := h.head_pending hpending
    refine ⟨c, es, ?_, h, hpending⟩
    unfold fill
    rw [hpending]
  | nil =>
    refine ⟨{ c with pending := [(d, p)], source := .giving (p.advance d) ds fault }, [], ?_, ?_,
      rfl⟩
    · unfold fill Source.pull
      simp only [hpending, h.source hpending]
      rfl
    · exact ⟨rfl, rfl, by simp, by simp⟩

/-- At the end there is nothing to fetch. -/
theorem fill_at_nil (h : c.At q p [] none) : fill c = .ok () c := by
  obtain ⟨pending, source, nextPos⟩ := c
  obtain rfl : pending = [] := h.pending_eq_nil
  obtain rfl : source = .giving p [] none := h.source rfl
  rfl

/-- A source that breaks off says so once, at the place where the cursor stands. -/
theorem fill_at_fault {f : Fault} (h : c.At q p [] (some f)) :
    ∃ c', fill c = .error ⟨.source f p, p⟩ c' ∧ c'.At q p [] none := by
  have hpending := h.pending_eq_nil
  refine ⟨{ c with source := .giving p [] none }, ?_, ?_⟩
  · unfold fill Source.pull
    simp only [hpending, h.source hpending, h.next hpending]
    rfl
  · exact ⟨congrArg (· ++ []) hpending, rfl, h.next, h.ahead⟩

/-- Before a character, to look gives it and leaves the cursor where it stands. -/
theorem peek_at_cons {d : Char} {ds : List Char} (h : c.At q p (d :: ds) fault) :
    ∃ c', peek c = .ok (some d) c' ∧ c'.At q p (d :: ds) fault := by
  obtain ⟨c', es, hfill, hc', hpending⟩ := fill_at_cons h
  refine ⟨c', ?_, hc'⟩
  rw [peek_of_fill hfill, hpending]
  rfl

theorem peek_at_nil (h : c.At q p [] none) : peek c = .ok none c := by
  rw [peek_of_fill (fill_at_nil h), h.pending_eq_nil]
  rfl

/-- Where the source has broken off, to look reports the fault, once and at its place. -/
theorem peek_at_fault {f : Fault} (h : c.At q p [] (some f)) :
    ∃ c', peek c = .error ⟨.source f p, p⟩ c' ∧ c'.At q p [] none := by
  obtain ⟨c', hfill, hc'⟩ := fill_at_fault h
  exact ⟨c', peek_of_fill_error hfill, hc'⟩

theorem atEnd_at_cons {d : Char} {ds : List Char} (h : c.At q p (d :: ds) fault) :
    ∃ c', atEnd c = .ok false c' ∧ c'.At q p (d :: ds) fault := by
  obtain ⟨c', hpeek, hc'⟩ := peek_at_cons h
  exact ⟨c', atEnd_of_peek hpeek, hc'⟩

theorem atEnd_at_nil (h : c.At q p [] none) : atEnd c = .ok true c :=
  atEnd_of_peek (peek_at_nil h)

/-- A fault is reported before it is told whether the cursor is at the end. -/
theorem atEnd_at_fault {f : Fault} (h : c.At q p [] (some f)) :
    ∃ c', atEnd c = .error ⟨.source f p, p⟩ c' ∧ c'.At q p [] none := by
  obtain ⟨c', hpeek, hc'⟩ := peek_at_fault h
  exact ⟨c', atEnd_of_peek_error hpeek, hc'⟩

/-- Taking a character moves the cursor over it. After a character outside of the class `q`, nothing
more has been looked at. -/
theorem take?_at_cons {d : Char} {ds : List Char} (h : c.At q p (d :: ds) fault) :
    ∃ c', take? c = .ok (some d) c' ∧ c'.At q (p.advance d) ds fault ∧
      (q d = false → c'.pending = []) := by
  obtain ⟨c', es, hfill, hc', hpending⟩ := fill_at_cons h
  have hlocated := hc'.located
  have hahead := hc'.ahead
  rw [Cursor.located, hpending, List.cons_append] at hlocated
  rw [hpending] at hahead
  refine ⟨_, take?_of_fill hfill hpending, ?_, fun hd => ?_⟩
  · refine ⟨(List.cons.inj hlocated).2, hc'.broken, fun _ => rfl, fun e he => hahead e ?_⟩
    cases es with
    | nil => simp at he
    | cons e' es => exact List.mem_cons_of_mem _ he
  · cases es with
    | nil => rfl
    | cons e' es =>
      have hq := hahead (d, p) List.mem_cons_self
      rw [hd] at hq
      cases hq

theorem take?_at_nil (h : c.At q p [] none) : take? c = .ok none c :=
  take?_of_fill_nil (fill_at_nil h) h.pending_eq_nil

/-- Where the source has broken off, to take a character reports the fault. -/
theorem take?_at_fault {f : Fault} (h : c.At q p [] (some f)) :
    ∃ c', take? c = .error ⟨.source f p, p⟩ c' ∧ c'.At q p [] none := by
  obtain ⟨c', hfill, hc'⟩ := fill_at_fault h
  exact ⟨c', take?_of_fill_error hfill, hc'⟩

/-- A character that has to come is taken if it is there. -/
theorem take_at_cons {d : Char} {ds : List Char} (awaited : Awaited)
    (h : c.At q p (d :: ds) fault) :
    ∃ c', take awaited c = .ok d c' ∧ c'.At q (p.advance d) ds fault := by
  obtain ⟨c', htake, hc', -⟩ := take?_at_cons h
  exact ⟨c', take_of_take? awaited htake, hc'⟩

/-- At the end, the error says what was awaited, at the place of the cursor. -/
theorem take_at_nil (awaited : Awaited) (h : c.At q p [] none) :
    take awaited c = .error ⟨.endOfInput awaited, p⟩ c := by
  rw [take_of_take?_none awaited (take?_at_nil h), h.pos]

theorem take_at_fault {f : Fault} (awaited : Awaited) (h : c.At q p [] (some f)) :
    ∃ c', take awaited c = .error ⟨.source f p, p⟩ c' ∧ c'.At q p [] none := by
  obtain ⟨c', htake, hc'⟩ := take?_at_fault h
  exact ⟨c', take_of_take?_error awaited htake, hc'⟩

/-- To put a character back undoes taking it, if it may be put back and does not end a line. -/
theorem putBack_at {d : Char} (hd : q d = true) (hline : d ≠ '\n')
    (h : c.At q (p.advance d) cs fault) : (putBack d c).At q p (d :: cs) fault := by
  have hback : c.pos.back = p := by rw [h.pos, Pos.back_advance hline]
  unfold putBack
  rw [hback]
  refine ⟨?_, h.broken, by simp, ?_⟩
  · exact congrArg (List.cons (d, p)) h.located
  · intro e he
    cases hpending : c.pending with
    | nil => simp [hpending] at he
    | cons e' es =>
      simp only [hpending, List.dropLast_cons_cons, List.mem_cons] at he
      rcases he with rfl | he
      · exact hd
      · exact h.ahead e (hpending ▸ he)

/-- **Putting back what was read** from the current line brings the cursor back to where it was. -/
theorem pushBack_at {text : List Char} (htext : ∀ d ∈ text, q d = true ∧ d ≠ '\n')
    (h : c.At q (p.advanceAll text) cs fault) :
    ∃ c', pushBack text c = .ok () c' ∧ c'.At q p (text ++ cs) fault := by
  refine ⟨text.foldr putBack c, rfl, ?_⟩
  induction text generalizing p with
  | nil => exact h
  | cons d text ih =>
    obtain ⟨hd, hline⟩ := htext d List.mem_cons_self
    exact putBack_at hd hline (ih (fun e he => htext e (List.mem_cons_of_mem _ he)) h)

end Cursor

end SExpr
