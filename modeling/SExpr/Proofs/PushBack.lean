import SExpr.Proofs.Place
import SExpr.Proofs.Yields

/-!
# Putting back what was taken

A cursor does not remember where the characters stood that it has delivered. When some of them are
put back, their places are counted backwards from the place of the cursor, whatever it has pending
there. This module shows that nothing can tell the cursor then from what it was before they were
taken.

* **`Cursor.Move.run_at`**: what a move answers and where it leads is a matter of the place of the
  cursor, the text before it and how its source breaks off.
* **`Cursor.Reached.keeps`**: where a cursor stands that was moved by reading and by putting back
  what was read.
* **`Cursor.pushBack_restores`**: to take characters and put them back.
-/

namespace SExpr

namespace Cursor

variable {q : Char → Bool} {p : Pos} {cs : List Char} {fault : Option Fault} {c c' : Cursor}
  {taken text : List Char}

/-! ## Moves -/

/-- What a call of `take?` delivers. -/
def delivered (c : Cursor) : List Char :=
  match c.take? with
  | .ok ch? _ => ch?.toList
  | .error _ _ => []

/-- What a cursor can be asked to do. -/
inductive Move where
  | peek
  | take?
  | take (awaited : Awaited)
  | atEnd
  | pushBack (text : List Char)

namespace Move

/-- What a move can answer. -/
inductive Answer where
  | char? (ch : Option Char)
  | char (ch : Char)
  | flag (b : Bool)
  | done
  deriving DecidableEq

def answering {α : Type} (f : α → Answer) (x : CursorM α) (c : Cursor) :
    Except Failure Answer × Cursor :=
  match x c with
  | .ok a c => (.ok (f a), c)
  | .error e c => (.error e, c)

/-- The answer to a move, and the cursor afterwards. -/
def run (c : Cursor) : Move → Except Failure Answer × Cursor
  | peek => answering .char? Cursor.peek c
  | take? => answering .char? Cursor.take? c
  | take awaited => answering .char (Cursor.take awaited) c
  | atEnd => answering .flag Cursor.atEnd c
  | pushBack text => answering (fun _ => .done) (Cursor.pushBack text) c

/-- There is room on the line before the place `p` for what the move puts back. -/
def Fits (p : Pos) : Move → Prop
  | pushBack text => '\n' ∉ text ∧ text.length ≤ p.col
  | _ => True

/-- The move puts back only what the last characters taken were, and no newline. -/
def Faithful (taken : List Char) : Move → Prop
  | pushBack text => text <:+ taken ∧ '\n' ∉ text
  | _ => True

/-- What the calls of `take?` just made have delivered, after one more move. -/
def takenAfter (c : Cursor) (taken : List Char) : Move → List Char
  | take? => taken ++ c.delivered
  | _ => []

end Move

/-- The answers to moves that are made one after the other, each with the place of the cursor
afterwards. -/
def observe (c : Cursor) : List Move → List (Except Failure Move.Answer × Pos)
  | [] => []
  | m :: ms => ((m.run c).1, (m.run c).2.pos) :: observe (m.run c).2 ms

/-- Each of the moves puts back only what there is room for where the cursor then stands. -/
def Fits (c : Cursor) : List Move → Prop
  | [] => True
  | m :: ms => m.Fits c.pos ∧ Fits (m.run c).2 ms

/-- Each of the moves puts back only what was taken just before; at first that is `taken`. -/
def Faithful (c : Cursor) (taken : List Char) : List Move → Prop
  | [] => True
  | m :: ms => m.Faithful taken ∧ Faithful (m.run c).2 (m.takenAfter c taken) ms

/-- The cursor comes from a fresh one over a text, or over bytes that any decoder makes characters
of, by moves that put back only what was taken just before. The last of them are calls of `take?`
that have delivered `taken`. -/
inductive Reached : Cursor → List Char → Prop where
  | ofString (s : String) : Reached { source := .ofString s } []
  | ofAnswers (answers : List (Except Fault (List Char))) :
    Reached { source := .ofAnswers answers } []
  | move {c : Cursor} {taken : List Char} (m : Move) (hc : Reached c taken)
    (hm : m.Faithful taken) : Reached (m.run c).2 (m.takenAfter c taken)

/-- Calls of `take?` deliver the characters of a text, one after the other. -/
inductive Delivers : Cursor → List Char → Cursor → Prop where
  | nil (c : Cursor) : Delivers c [] c
  | cons {c c₁ c' : Cursor} {d : Char} {ds : List Char} (h : take? c = .ok (some d) c₁)
    (hds : Delivers c₁ ds c') : Delivers c (d :: ds) c'

/-! ## Cursors that keep their books -/

namespace Move

/-- A move that succeeds answers and leads to its place. -/
theorem answering_of_ok {α : Type} {f : α → Answer} {x : CursorM α} {a : α}
    (h : ∃ c', x c = .ok a c' ∧ c'.At q p cs fault) :
    (answering f x c).1 = .ok (f a) ∧ (answering f x c).2.At q p cs fault := by
  obtain ⟨c', hx, hc'⟩ := h
  unfold answering
  rw [hx]
  exact ⟨rfl, hc'⟩

/-- So does a move that fails. -/
theorem answering_of_error {α : Type} {f : α → Answer} {x : CursorM α} {e : Failure}
    (h : ∃ c', x c = .error e c' ∧ c'.At q p cs fault) :
    (answering f x c).1 = .error e ∧ (answering f x c).2.At q p cs fault := by
  obtain ⟨c', hx, hc'⟩ := h
  unfold answering
  rw [hx]
  exact ⟨rfl, hc'⟩

/-- **A move answers alike from the same place.** What it answers and where it leads depends on the
place of the cursor, the text before it and how its source breaks off, not on what is pending. -/
theorem run_at (m : Move) (hm : m.Fits p) (cs : List Char) (fault : Option Fault) :
    ∃ answer p' cs' fault', ∀ c : Cursor, c.At (fun _ => true) p cs fault →
      (m.run c).1 = answer ∧ (m.run c).2.At (fun _ => true) p' cs' fault' := by
  cases m with
  | peek =>
    match cs, fault with
    | d :: ds, fault => exact ⟨_, _, _, _, fun c hc => answering_of_ok (peek_at_cons hc)⟩
    | [], none => exact ⟨_, _, _, _, fun c hc => answering_of_ok ⟨c, peek_at_nil hc, hc⟩⟩
    | [], some f => exact ⟨_, _, _, _, fun c hc => answering_of_error (peek_at_fault hc)⟩
  | take? =>
    match cs, fault with
    | d :: ds, fault =>
      refine ⟨.ok (.char? d), p.advance d, ds, fault, fun c hc => answering_of_ok ?_⟩
      obtain ⟨c', htake, hc', -⟩ := take?_at_cons hc
      exact ⟨c', htake, hc'⟩
    | [], none => exact ⟨_, _, _, _, fun c hc => answering_of_ok ⟨c, take?_at_nil hc, hc⟩⟩
    | [], some f => exact ⟨_, _, _, _, fun c hc => answering_of_error (take?_at_fault hc)⟩
  | take awaited =>
    match cs, fault with
    | d :: ds, fault => exact ⟨_, _, _, _, fun c hc => answering_of_ok (take_at_cons awaited hc)⟩
    | [], none =>
      exact ⟨_, _, _, _, fun c hc => answering_of_error ⟨c, take_at_nil awaited hc, hc⟩⟩
    | [], some f =>
      exact ⟨_, _, _, _, fun c hc => answering_of_error (take_at_fault awaited hc)⟩
  | atEnd =>
    match cs, fault with
    | d :: ds, fault => exact ⟨_, _, _, _, fun c hc => answering_of_ok (atEnd_at_cons hc)⟩
    | [], none => exact ⟨_, _, _, _, fun c hc => answering_of_ok ⟨c, atEnd_at_nil hc, hc⟩⟩
    | [], some f => exact ⟨_, _, _, _, fun c hc => answering_of_error (atEnd_at_fault hc)⟩
  | pushBack text =>
    -- The place that the text is put back to is the one before it.
    have hp : p = (⟨p.line, p.col - text.length⟩ : Pos).advanceAll text := by
      rw [Pos.advanceAll_of_not_mem hm.1]
      show p = ⟨p.line, p.col - text.length + text.length⟩
      rw [Nat.sub_add_cancel hm.2]
    refine ⟨.ok .done, ⟨p.line, p.col - text.length⟩, text ++ cs, fault,
      fun c hc => answering_of_ok (a := ()) ?_⟩
    rw [hp] at hc
    exact pushBack_at (fun d hd => ⟨rfl, fun h => hm.1 (h ▸ hd)⟩) hc

/-- What was delivered is behind the cursor. -/
theorem run_take?_at (hc : c.At (fun _ => true) p cs fault) :
    ∃ cs' fault', (take?.run c).2.At (fun _ => true) (p.advanceAll c.delivered) cs' fault' := by
  unfold delivered
  match cs, fault with
  | d :: ds, fault =>
    obtain ⟨c', htake, hc', -⟩ := take?_at_cons hc
    rw [htake]
    exact ⟨ds, fault, (answering_of_ok ⟨c', htake, hc'⟩).2⟩
  | [], none =>
    have htake := take?_at_nil hc
    rw [htake]
    exact ⟨[], none, (answering_of_ok ⟨c, htake, hc⟩).2⟩
  | [], some f =>
    obtain ⟨c', htake, hc'⟩ := take?_at_fault hc
    rw [htake]
    exact ⟨[], none, (answering_of_error ⟨c', htake, hc'⟩).2⟩

/-- After what was taken there is room for putting it back. -/
theorem Faithful.fits {m : Move} (hm : m.Faithful taken) (p : Pos) :
    m.Fits (p.advanceAll taken) := by
  cases m with
  | pushBack text =>
    obtain ⟨⟨front, rfl⟩, hline⟩ := hm
    refine ⟨hline, ?_⟩
    rw [Pos.advanceAll_append, Pos.advanceAll_of_not_mem hline]
    exact Nat.le_add_left ..
  | _ => trivial

end Move

/-- The moves are made from the same place with the same answers, and lead to the same places. -/
theorem observe_at {moves : List Move} (hc : c.At (fun _ => true) p cs fault)
    (hc' : c'.At (fun _ => true) p cs fault) (hmoves : Fits c moves) :
    observe c' moves = observe c moves := by
  induction moves generalizing c c' p cs fault with
  | nil => rfl
  | cons m ms ih =>
    obtain ⟨hm, hms⟩ := hmoves
    rw [hc.pos] at hm
    obtain ⟨answer, p₁, cs₁, fault₁, hrun⟩ := m.run_at hm cs fault
    obtain ⟨hanswer, hc₁⟩ := hrun c hc
    obtain ⟨hanswer', hc₁'⟩ := hrun c' hc'
    rw [observe, observe, hanswer, hanswer', hc₁.pos, hc₁'.pos, ih hc₁ hc₁' hms]

/-- **A cursor keeps its books** if it is moved by reading and by putting back what was just read:
it stands at some place before some text, and what was taken last is right behind it. -/
theorem Reached.keeps (hc : Reached c taken) :
    ∃ (p : Pos) (cs : List Char) (fault : Option Fault),
      c.At (fun _ => true) (p.advanceAll taken) cs fault := by
  induction hc with
  | ofString s =>
    rw [Source.ofString_eq]
    exact ⟨.start, _, _, at_giving ..⟩
  | ofAnswers answers =>
    obtain ⟨cs, fault, h⟩ := ByteChars.Answers.exists_of answers
    rw [Source.ofAnswers_eq h]
    exact ⟨.start, _, _, at_giving ..⟩
  | @move c taken m hc hm ih =>
    obtain ⟨p, cs, fault, hat⟩ := ih
    -- Only a call of `take?` goes on with what was taken before.
    have hother (htaken : m.takenAfter c taken = []) :
        ∃ (p : Pos) (cs : List Char) (fault : Option Fault),
          (m.run c).2.At (fun _ => true) (p.advanceAll (m.takenAfter c taken)) cs fault := by
      obtain ⟨_, p', cs', fault', hrun⟩ := m.run_at (hm.fits p) cs fault
      rw [htaken]
      exact ⟨p', cs', fault', (hrun c hat).2⟩
    cases m with
    | take? =>
      obtain ⟨cs', fault', hat'⟩ := Move.run_take?_at hat
      rw [← Pos.advanceAll_append] at hat'
      exact ⟨p, cs', fault', hat'⟩
    | _ => exact hother rfl

/-- What is faithful to what has been taken fits before the cursor. -/
theorem Reached.fits {moves : List Move} (hc : Reached c taken)
    (hmoves : Faithful c taken moves) : Fits c moves := by
  induction moves generalizing c taken with
  | nil => trivial
  | cons m ms ih =>
    obtain ⟨p, cs, fault, hat⟩ := hc.keeps
    refine ⟨?_, ih (hc.move m hmoves.1) hmoves.2⟩
    rw [hat.pos]
    exact hmoves.1.fits p

/-- Characters that are taken come from the text before the cursor. -/
theorem Delivers.at (hc : c.At q p cs fault) (htext : Delivers c text c') :
    ∃ rest, cs = text ++ rest ∧ c'.At q (p.advanceAll text) rest fault := by
  induction htext generalizing p cs with
  | nil c => exact ⟨cs, rfl, hc⟩
  | @cons c c₁ c' d ds h hds ih =>
    match cs, fault with
    | d' :: cs, fault =>
      obtain ⟨c₂, htake, hc₂, -⟩ := take?_at_cons hc
      obtain ⟨⟨⟩, rfl⟩ := EStateM.Result.ok.inj (htake.symm.trans h)
      obtain ⟨rest, rfl, hc'⟩ := ih hc₂
      exact ⟨rest, rfl, hc'⟩
    | [], none => cases (take?_at_nil hc).symm.trans h
    | [], some f =>
      obtain ⟨c₂, htake, -⟩ := take?_at_fault hc
      cases htake.symm.trans h

/-! ## Answers without places

Whatever is put back, a cursor delivers it and then what it had to deliver before; if there was no
room for it, the cursor just does not know where the characters stand. -/

/-- What a cursor still has to deliver, and how and where its source breaks off after that. -/
def content (c : Cursor) : List Char × Option (Fault × Pos) := (c.unread, c.source.broken)

theorem At.content (hc : c.At q p cs fault) :
    c.content = (cs, fault.map (·, p.advanceAll cs)) := by
  rw [Cursor.content, hc.unread, hc.broken]

variable {k : List Char × Option (Fault × Pos)} {broken : Option (Fault × Pos)} {place : Pos}

/-- Before a character, `fill` makes it pending if it was not, at whatever place. -/
theorem fill_content_cons {d : Char} {ds : List Char} (h : c.content = (d :: ds, broken)) :
    ∃ c' p es, fill c = .ok () c' ∧ c'.content = (d :: ds, broken) ∧ c'.pending = (d, p) :: es := by
  obtain ⟨hunread, hbroken⟩ := Prod.mk.inj h
  cases hpending : c.pending with
  | cons e es =>
    obtain ⟨d', p⟩ := e
    obtain rfl : d' = d := by
      rw [Cursor.unread, hpending] at hunread
      exact (List.cons.inj hunread).1
    refine ⟨c, p, es, ?_, h, hpending⟩
    unfold fill
    rw [hpending]
  | nil =>
    rw [Cursor.unread, hpending, List.map_nil, List.nil_append] at hunread
    obtain ⟨⟨d', p⟩, located, hlocated, rfl, hrest⟩ := List.map_eq_cons_iff.mp hunread
    refine ⟨{ c with pending := [(d', p)], source := { c.source with located } }, p, [], ?_, ?_,
      rfl⟩
    · unfold fill Source.pull
      simp only [hpending, hlocated]
      rfl
    · exact congrArg₂ Prod.mk (congrArg (List.cons d') hrest) hbroken

/-- At the end nothing becomes pending. -/
theorem fill_content_nil (h : c.content = ([], none)) : fill c = .ok () c ∧ c.pending = [] := by
  obtain ⟨pending, ⟨located, broken⟩, nextPos⟩ := c
  obtain ⟨hunread, hbroken⟩ := Prod.mk.inj h
  obtain rfl : broken = none := hbroken
  obtain ⟨hpending, hrest⟩ := List.append_eq_nil_iff.mp hunread
  obtain rfl : pending = [] := List.map_eq_nil_iff.mp hpending
  obtain rfl : located = [] := List.map_eq_nil_iff.mp hrest
  exact ⟨rfl, rfl⟩

/-- Where the source breaks off, it does so once, wherever the cursor thinks it stands. -/
theorem fill_content_fault {f : Fault} (h : c.content = ([], some (f, place))) :
    ∃ p c', fill c = .error ⟨.source f place, p⟩ c' ∧ c'.content = ([], none) := by
  obtain ⟨pending, ⟨located, broken⟩, nextPos⟩ := c
  obtain ⟨hunread, hbroken⟩ := Prod.mk.inj h
  obtain rfl : broken = some (f, place) := hbroken
  obtain ⟨hpending, hrest⟩ := List.append_eq_nil_iff.mp hunread
  obtain rfl : pending = [] := List.map_eq_nil_iff.mp hpending
  obtain rfl : located = [] := List.map_eq_nil_iff.mp hrest
  exact ⟨nextPos, { source := { located := [] }, nextPos }, rfl, rfl⟩

/-- A character that is to be delivered can be looked at. -/
theorem peek_content_cons {d : Char} {ds : List Char} (h : c.content = (d :: ds, broken)) :
    ∃ c', peek c = .ok (some d) c' ∧ c'.content = (d :: ds, broken) := by
  obtain ⟨c', p, es, hfill, hc', hpending⟩ := fill_content_cons h
  refine ⟨c', ?_, hc'⟩
  rw [peek_of_fill hfill, hpending]
  rfl

theorem peek_content_nil (h : c.content = ([], none)) : peek c = .ok none c := by
  obtain ⟨hfill, hpending⟩ := fill_content_nil h
  rw [peek_of_fill hfill, hpending]
  rfl

/-- A character that is to be delivered can be taken. -/
theorem take?_content_cons {d : Char} {ds : List Char} (h : c.content = (d :: ds, broken)) :
    ∃ c', take? c = .ok (some d) c' ∧ c'.content = (ds, broken) := by
  obtain ⟨c', p, es, hfill, hc', hpending⟩ := fill_content_cons h
  refine ⟨_, take?_of_fill hfill hpending, ?_⟩
  simpa [content, Cursor.unread, hpending] using hc'

theorem take?_content_nil (h : c.content = ([], none)) : take? c = .ok none c :=
  take?_of_fill_nil (fill_content_nil h).1 (fill_content_nil h).2

namespace Move

/-- A move that succeeds, whatever the places. -/
theorem answering_content_of_ok {α : Type} {f : α → Answer} {x : CursorM α} {a : α}
    (h : ∃ c', x c = .ok a c' ∧ c'.content = k) :
    (answering f x c).1.mapError Failure.cause = .ok (f a) ∧ (answering f x c).2.content = k := by
  obtain ⟨c', hx, hc'⟩ := h
  unfold answering
  rw [hx]
  exact ⟨rfl, hc'⟩

/-- A move that fails, whatever the places. -/
theorem answering_content_of_error {α : Type} {f : α → Answer} {x : CursorM α} {cause : Cause}
    (h : ∃ p c', x c = .error ⟨cause, p⟩ c' ∧ c'.content = k) :
    (answering f x c).1.mapError Failure.cause = .error cause ∧
      (answering f x c).2.content = k := by
  obtain ⟨p, c', hx, hc'⟩ := h
  unfold answering
  rw [hx]
  exact ⟨rfl, hc'⟩

/-- A move that looks ahead fails where the source breaks off. -/
theorem answering_content_of_fault {α : Type} {f : α → Answer} {x : CursorM α} {fault : Fault}
    (hx : ∀ {c c' : Cursor} {e : Failure}, fill c = .error e c' → x c = .error e c')
    (h : c.content = ([], some (fault, place))) :
    (answering f x c).1.mapError Failure.cause = .error (.source fault place) ∧
      (answering f x c).2.content = ([], none) := by
  obtain ⟨p, c', hfill, hc'⟩ := fill_content_fault h
  exact answering_content_of_error ⟨p, c', hx hfill, hc'⟩

/-- **Only places depend on places.** The answer to a move, up to the place of a failure, and what
the cursor then has to deliver are a matter of what it had to deliver before. -/
theorem run_content (m : Move) (k : List Char × Option (Fault × Pos)) :
    ∃ answer k', ∀ c : Cursor, c.content = k →
      (m.run c).1.mapError Failure.cause = answer ∧ (m.run c).2.content = k' := by
  -- Three things can come next: a character, the end, or the place where the source breaks off.
  cases m with
  | peek =>
    match k with
    | (d :: ds, broken) =>
      exact ⟨_, _, fun c hc => answering_content_of_ok (peek_content_cons hc)⟩
    | ([], none) =>
      exact ⟨_, _, fun c hc => answering_content_of_ok ⟨c, peek_content_nil hc, hc⟩⟩
    | ([], some (f, place)) =>
      exact ⟨_, _, fun c hc => answering_content_of_fault peek_of_fill_error hc⟩
  | take? =>
    match k with
    | (d :: ds, broken) =>
      exact ⟨_, _, fun c hc => answering_content_of_ok (take?_content_cons hc)⟩
    | ([], none) =>
      exact ⟨_, _, fun c hc => answering_content_of_ok ⟨c, take?_content_nil hc, hc⟩⟩
    | ([], some (f, place)) =>
      exact ⟨_, _, fun c hc => answering_content_of_fault take?_of_fill_error hc⟩
  | take awaited =>
    match k with
    | (d :: ds, broken) =>
      refine ⟨.ok (.char d), (ds, broken), fun c hc => answering_content_of_ok ?_⟩
      obtain ⟨c', htake, hc'⟩ := take?_content_cons hc
      exact ⟨c', take_of_take? awaited htake, hc'⟩
    | ([], none) =>
      refine ⟨.error (.endOfInput awaited), ([], none), fun c hc => answering_content_of_error ?_⟩
      exact ⟨c.pos, c, take_of_take?_none awaited (take?_content_nil hc), hc⟩
    | ([], some (f, place)) =>
      exact ⟨_, _, fun c hc => answering_content_of_fault
        (fun h => take_of_take?_error awaited (take?_of_fill_error h)) hc⟩
  | atEnd =>
    match k with
    | (d :: ds, broken) =>
      refine ⟨.ok (.flag false), (d :: ds, broken), fun c hc => answering_content_of_ok ?_⟩
      obtain ⟨c', hpeek, hc'⟩ := peek_content_cons hc
      exact ⟨c', atEnd_of_peek hpeek, hc'⟩
    | ([], none) =>
      exact ⟨_, _, fun c hc =>
        answering_content_of_ok ⟨c, atEnd_of_peek (peek_content_nil hc), hc⟩⟩
    | ([], some (f, place)) =>
      exact ⟨_, _, fun c hc => answering_content_of_fault
        (fun h => atEnd_of_peek_error (peek_of_fill_error h)) hc⟩
  | pushBack text =>
    obtain ⟨cs, broken⟩ := k
    refine ⟨.ok .done, (text ++ cs, broken), fun c hc => ⟨rfl, ?_⟩⟩
    obtain ⟨rfl, rfl⟩ := Prod.mk.inj hc
    show (text.foldr putBack c).content = _
    rw [content, unread_foldr_putBack, source_foldr_putBack]

end Move

/-- Moves of any kind have the same answers, up to the places of failures, if there is the same text
to deliver. -/
theorem observe_content {moves : List Move} (h : c'.content = c.content) :
    (observe c' moves).map (·.1.mapError Failure.cause) =
      (observe c moves).map (·.1.mapError Failure.cause) := by
  induction moves generalizing c c' with
  | nil => rfl
  | cons m ms ih =>
    obtain ⟨answer, k', hrun⟩ := m.run_content c.content
    obtain ⟨hanswer, hk⟩ := hrun c rfl
    obtain ⟨hanswer', hk'⟩ := hrun c' h
    simp only [observe, List.map_cons, hanswer, hanswer', ih (hk'.trans hk.symm)]

/-! ## Taking and putting back -/

/-- **To put back what was taken undoes the taking.** The cursor was moved by reading and by putting
back what was just read, and may have looked ahead, be at the end, or have met a failure of its
source. From there it takes characters of the current line, and they are put back. Then it is where
it was, and all later moves have the same answers and lead to the same places, as long as nothing is
put back that there is no room for on the line before the cursor. Otherwise still only places can
differ. There is room for what was just taken. -/
theorem pushBack_restores (hc : Reached c taken) (htext : Delivers c text c')
    (hline : '\n' ∉ text) :
    ((Move.pushBack text).run c').2.pos = c.pos ∧
    (∀ moves, Fits c moves →
      observe ((Move.pushBack text).run c').2 moves = observe c moves) ∧
    (∀ moves, Faithful c taken moves → Fits c moves) ∧
    ∀ moves, (observe ((Move.pushBack text).run c').2 moves).map (·.1.mapError Failure.cause) =
      (observe c moves).map (·.1.mapError Failure.cause) := by
  obtain ⟨p, cs, fault, hat⟩ := hc.keeps
  obtain ⟨rest, rfl, hat'⟩ := htext.at hat
  obtain ⟨c₁, hpush, hback⟩ := pushBack_at (fun d hd => ⟨rfl, fun h => hline (h ▸ hd)⟩) hat'
  have hrun : ((Move.pushBack text).run c').2 = c₁ := by
    rw [Move.run, Move.answering, hpush]
  rw [hrun]
  refine ⟨?_, fun moves => observe_at hat hback, fun moves => hc.fits, fun moves => ?_⟩
  · rw [hback.pos, hat.pos]
  · exact observe_content (hback.content.trans hat.content.symm)

/-- The second line begins with a character that was put back, and breaks off after one more. Both
are taken and put back. -/
theorem pushBack_restores_line :
    Reached { pending := [('a', ⟨1, 0⟩)], nextPos := ⟨1, 1⟩, source :=
        { located := [('b', ⟨1, 1⟩)], broken := some (.invalidBytes [0xFF], ⟨1, 2⟩) } } [] ∧
      ((Move.pushBack ['a', 'b']).run { nextPos := ⟨1, 2⟩, source :=
        { located := [], broken := some (.invalidBytes [0xFF], ⟨1, 2⟩) } }).2.pos = ⟨1, 0⟩ ∧
      observe ((Move.pushBack ['a', 'b']).run { nextPos := ⟨1, 2⟩, source :=
          { located := [], broken := some (.invalidBytes [0xFF], ⟨1, 2⟩) } }).2
          [.take .value, .take?, .take?, .atEnd, .pushBack ['z'], .peek] =
        [(.ok (.char 'a'), ⟨1, 1⟩), (.ok (.char? 'b'), ⟨1, 2⟩),
          (.error ⟨.source (.invalidBytes [0xFF]) ⟨1, 2⟩, ⟨1, 2⟩⟩, ⟨1, 2⟩),
          (.ok (.flag true), ⟨1, 2⟩), (.ok .done, ⟨1, 1⟩), (.ok (.char? 'z'), ⟨1, 1⟩)] := by
  have hc : Reached { pending := [('a', ⟨1, 0⟩)], nextPos := ⟨1, 1⟩, source :=
      { located := [('b', ⟨1, 1⟩)], broken := some (.invalidBytes [0xFF], ⟨1, 2⟩) } } [] :=
    -- Three characters are taken and the last of them is put back.
    ((((Reached.ofAnswers [.ok ['x', '\n'], .ok ['a', 'b'], .error (.invalidBytes [0xFF])]).move
      .take? trivial).move .take? trivial).move .take? trivial).move (.pushBack ['a'])
        ⟨⟨['x', '\n'], rfl⟩, by decide⟩
  have h := pushBack_restores hc (.cons rfl (.cons rfl (.nil _))) (by decide)
  have hmoves := h.2.1 [.take .value, .take?, .take?, .atEnd, .pushBack ['z'], .peek]
    ⟨trivial, trivial, trivial, trivial, ⟨by decide, by decide⟩, trivial, trivial⟩
  exact ⟨hc, h.1, hmoves.trans rfl⟩

/-- What is put back later need not have been read. At the start of a line there is no room for it;
so the cursor then miscounts its column, unless a character is pending whose place it knows. -/
theorem not_observe_pushBack_eq :
    ¬ ∀ (c c' : Cursor) (taken text : List Char), Reached c taken → Delivers c text c' →
      '\n' ∉ text → ∀ moves,
        observe ((Move.pushBack text).run c').2 moves = observe c moves := by
  intro h
  have hplaces := congrArg (List.map Prod.snd) (h _ _ _ ['a'] (.ofString "ab")
    (.cons rfl (.nil _)) (by decide) [.pushBack ['z'], .take?])
  revert hplaces
  decide

end Cursor

end SExpr
