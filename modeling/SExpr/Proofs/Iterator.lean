import Mathlib
import SExpr.Source

/-!
# Iterators

The iterator over a text and the one over bytes each count their places by themselves, the latter
across the chunks of its decoder. One step of either yields the first of the characters to come,
with the place that it has in the text, and leaves the iterator before the others. So what an
iterator yields in a whole run can be told from the characters alone.

* **`Iterates`**: what one step of an iterator has to be.
* **`Iterates.yields_eq`**, **`Iterates.ofIterator_eq`**: what a whole run yields.
* **`TextChars.iterates`**, **`ByteChars.iterates`**: the steps of the two iterators.
-/

namespace SExpr

/-! ## Runs -/

/-- What an iterator yields, asked so many times. When there is nothing more, it stays as it is. -/
def yields {ι : Type} (next? : ι → Option (Yield × ι)) : Nat → ι → List (Option Yield)
  | 0, _ => []
  | k + 1, i =>
    match next? i with
    | none => none :: yields next? k i
    | some (y, i) => some y :: yields next? k i

/-- The source of `cs`, of which the first character stands at `p`. After them it breaks off if
`fault` says so. -/
def Source.giving (p : Pos) (cs : List Char) (fault : Option Fault) : Source :=
  { located := p.locate cs, broken := fault.map (·, p.advanceAll cs) }

/-- What is yielded of `cs`, of which the first character stands at `p`: each character with its
place, and then the fault if there is one. -/
def yielded (p : Pos) (cs : List Char) (fault : Option Fault) : List (Option Yield) :=
  (p.locate cs).map (some <| .ok ·) ++
    fault.toList.map fun fault => some (.error (fault, p.advanceAll cs))

/-- The steps of an iterator, which stands at `p` before `cs` and then breaks off if `fault` says
so whenever that is what `Stands` says of it. -/
structure Iterates {ι : Type} (next? : ι → Option (Yield × ι))
    (Stands : Pos → List Char → Option Fault → ι → Prop) : Prop where
  char {p : Pos} {c : Char} {cs : List Char} {fault : Option Fault} {i : ι} :
    Stands p (c :: cs) fault i →
      ∃ j, next? i = some (.ok (c, p), j) ∧ Stands (p.advance c) cs fault j
  fault {p : Pos} {fault : Fault} {i : ι} :
    Stands p [] (some fault) i → ∃ j, next? i = some (.error (fault, p), j) ∧ Stands p [] none j
  ended {p : Pos} {i : ι} : Stands p [] none i → next? i = none

namespace Iterates

variable {ι : Type} {next? : ι → Option (Yield × ι)}
  {Stands : Pos → List Char → Option Fault → ι → Prop} {p : Pos} {cs : List Char}
  {fault : Option Fault} {i : ι}

/-- **A whole run** yields the characters, each at its place, then the fault if there is one, and
then nothing, however often the iterator is asked. -/
theorem yields_eq (h : Iterates next? Stands) (hi : Stands p cs fault i) (k : Nat) :
    yields next? k i = List.takeD k (yielded p cs fault) none := by
  induction k generalizing p cs fault i with
  | zero => rfl
  | succ k ih =>
    unfold yields
    cases cs with
    | cons c cs =>
      obtain ⟨j, hnext, hj⟩ := h.char hi
      rw [hnext]
      exact congrArg (List.cons _) (ih hj)
    | nil =>
      cases fault with
      | some fault =>
        obtain ⟨j, hnext, hj⟩ := h.fault hi
        rw [hnext]
        exact congrArg (List.cons _) (ih hj)
      | none =>
        rw [h.ended hi]
        exact congrArg (List.cons _) (ih hi)

/-- Asked often enough, an iterator has become the source of its characters. -/
theorem ofIterator_eq (h : Iterates next? Stands) (hi : Stands p cs fault i) {n : Nat}
    (hn : cs.length + fault.toList.length ≤ n) :
    Source.ofIterator next? n i = .giving p cs fault := by
  induction n generalizing p cs fault i with
  | zero =>
    obtain ⟨hcs, hfault⟩ := Nat.add_eq_zero_iff.mp (Nat.le_zero.mp hn)
    obtain rfl := List.eq_nil_of_length_eq_zero hcs
    obtain rfl := Option.toList_eq_nil_iff.mp (List.eq_nil_of_length_eq_zero hfault)
    rfl
  | succ n ih =>
    unfold Source.ofIterator
    cases cs with
    | cons c cs =>
      obtain ⟨j, hnext, hj⟩ := h.char hi
      rw [hnext]
      -- The step gives the first character, and the other steps what comes after it.
      show ({ Source.ofIterator next? n j with
        located := (c, p) :: (Source.ofIterator next? n j).located } : Source) = _
      rw [ih hj (by rw [List.length_cons] at hn; omega)]
      rfl
    | nil =>
      cases fault with
      | some fault =>
        obtain ⟨j, hnext, -⟩ := h.fault hi
        rw [hnext]
        rfl
      | none =>
        rw [h.ended hi]
        rfl

end Iterates

/-- To ask the source of an iterator is to ask the iterator, except that it is not asked again after
a fault. -/
theorem Source.pull_ofIterator {ι : Type} (next? : ι → Option (Yield × ι)) (n : Nat) (i : ι) :
    (ofIterator next? (n + 1) i).pull =
      match next? i with
      | none => (.ok none, { located := [] })
      | some (.error (fault, p), _) => (.error (.source fault p), { located := [] })
      | some (.ok c, j) => (.ok (some c), ofIterator next? n j) := by
  conv_lhs => unfold ofIterator
  rcases next? i with _ | ⟨_ | _, _⟩ <;> rfl

/-! ## Texts -/

namespace TextChars

/-- The iterator stands at `p` before `cs`. -/
def Stands (p : Pos) (cs : List Char) (fault : Option Fault) (t : TextChars) : Prop :=
  t = { rest := cs, pos := p } ∧ fault = none

/-- The iterator over a text gives its characters, each at its place, and has no fault. -/
theorem iterates : Iterates next? Stands where
  char := by
    rintro p c cs fault i ⟨rfl, hfault⟩
    exact ⟨_, rfl, rfl, hfault⟩
  fault h := nomatch h.2
  ended := by
    rintro p i ⟨rfl, -⟩
    rfl

end TextChars

/-- The source of a text gives the characters of the text from the start, and does not break off. -/
theorem Source.ofString_eq (s : String) : ofString s = .giving .start s.toList none :=
  TextChars.iterates.ofIterator_eq ⟨rfl, rfl⟩ (Nat.le_refl _)

/-! ## Bytes -/

namespace ByteChars

/-- A decoder answers with chunks that make up `cs`, and then with the fault if there is one. -/
inductive Answers : List (Except Fault (List Char)) → List Char → Option Fault → Prop where
  | nil : Answers [] [] none
  | error (fault : Fault) (answers : List (Except Fault (List Char))) :
    Answers (.error fault :: answers) [] (some fault)
  | ok {answers : List (Except Fault (List Char))} {cs : List Char} {fault : Option Fault}
    (chunk : List Char) (h : Answers answers cs fault) :
    Answers (.ok chunk :: answers) (chunk ++ cs) fault

/-- The iterator stands at `p` before `cs`: first what is left of the chunk at hand. -/
structure Stands (p : Pos) (cs : List Char) (fault : Option Fault) (b : ByteChars) : Prop where
  pos : b.pos = p
  chars : ∃ more, cs = b.chunk ++ more ∧ Answers b.answers more fault

theorem resume_cons (p : Pos) (c : Char) (chunk : List Char)
    (answers : List (Except Fault (List Char))) :
    resume p (c :: chunk) answers = some (.ok (c, p), { chunk, answers, pos := p.advance c }) := by
  rw [resume]

namespace Answers

variable {answers : List (Except Fault (List Char))} {cs : List Char} {fault : Option Fault}

/-- All answers are of this kind: whatever comes after the first error is never asked for. -/
theorem exists_of (answers : List (Except Fault (List Char))) :
    ∃ cs fault, Answers answers cs fault := by
  induction answers with
  | nil => exact ⟨[], none, .nil⟩
  | cons answer answers ih =>
    cases answer with
    | error fault => exact ⟨[], some fault, .error fault answers⟩
    | ok chunk =>
      obtain ⟨cs, fault, h⟩ := ih
      exact ⟨chunk ++ cs, fault, .ok chunk h⟩

/-- The steps allowed for suffice for all characters. -/
theorem length_le (h : Answers answers cs fault) :
    cs.length ≤ (answers.flatMap fun
      | .ok chunk => chunk
      | .error _ => []).length := by
  induction h with
  | nil => exact Nat.le_refl _
  | error fault answers => exact Nat.zero_le _
  | ok chunk h ih =>
    rw [List.flatMap_cons, List.length_append, List.length_append]
    exact Nat.add_le_add_left ih _

/-- Chunks before the answers put their characters before the others. -/
theorem append (h : Answers answers cs fault) (chunks : List (List Char)) :
    Answers (chunks.map .ok ++ answers) (chunks.flatten ++ cs) fault := by
  induction chunks with
  | nil => exact h
  | cons chunk chunks ih =>
    rw [List.flatten_cons, List.append_assoc]
    exact .ok chunk ih

/-- Chunks without characters are passed over. -/
theorem resume_char {c : Char} (p : Pos) (h : Answers answers (c :: cs) fault) :
    ∃ b, resume p [] answers = some (.ok (c, p), b) ∧ b.Stands (p.advance c) cs fault := by
  generalize hcs : c :: cs = text at h
  induction h with
  | nil => cases hcs
  | error fault answers => cases hcs
  | @ok answers more fault chunk h ih =>
    cases chunk with
    | nil => exact ih hcs
    | cons d chunk =>
      obtain ⟨rfl, rfl⟩ := List.cons.inj hcs
      exact ⟨_, resume_cons .., rfl, more, rfl, h⟩

/-- After all characters, the error is reported at the place after them, and nothing follows it. -/
theorem resume_fault {f : Fault} (p : Pos) (h : Answers answers [] (some f)) :
    resume p [] answers = some (.error (f, p), { answers := [], pos := p }) := by
  generalize hcs : [] = text at h
  generalize hfault : some f = fault at h
  induction h with
  | nil => cases hfault
  | error fault answers =>
    cases hfault
    rfl
  | ok chunk h ih =>
    obtain ⟨rfl, rfl⟩ := List.append_eq_nil_iff.mp hcs.symm
    exact ih rfl hfault

/-- At the end of the answers there is nothing more. -/
theorem resume_ended (p : Pos) (h : Answers answers [] none) : resume p [] answers = none := by
  generalize hcs : [] = text at h
  generalize hfault : none = fault at h
  induction h with
  | nil => rfl
  | error fault answers => cases hfault
  | ok chunk h ih =>
    obtain ⟨rfl, rfl⟩ := List.append_eq_nil_iff.mp hcs.symm
    exact ih rfl hfault

end Answers

/-- The iterator over bytes gives the characters of the answers, each at its place, and the error
after them. -/
theorem iterates : Iterates next? Stands where
  char := by
    rintro p c cs fault ⟨chunk, answers, _⟩ ⟨rfl, more, hcs, hanswers⟩
    cases chunk with
    | cons d chunk =>
      obtain ⟨rfl, rfl⟩ := List.cons.inj hcs
      exact ⟨_, resume_cons .., rfl, more, rfl, hanswers⟩
    | nil =>
      obtain rfl : c :: cs = more := hcs
      exact hanswers.resume_char _
  fault := by
    rintro p fault ⟨chunk, answers, _⟩ ⟨rfl, more, hcs, hanswers⟩
    obtain ⟨rfl, rfl⟩ := List.append_eq_nil_iff.mp hcs.symm
    exact ⟨_, hanswers.resume_fault _, rfl, [], rfl, .nil⟩
  ended := by
    rintro p ⟨chunk, answers, _⟩ ⟨rfl, more, hcs, hanswers⟩
    obtain ⟨rfl, rfl⟩ := List.append_eq_nil_iff.mp hcs.symm
    exact hanswers.resume_ended _

theorem stands_start {answers : List (Except Fault (List Char))} {cs : List Char}
    {fault : Option Fault} (h : Answers answers cs fault) :
    Stands .start cs fault { answers } :=
  ⟨rfl, cs, rfl, h⟩

end ByteChars

/-- The source of some answers gives their characters from the start, and breaks off at their error.
-/
theorem Source.ofAnswers_eq {answers : List (Except Fault (List Char))} {cs : List Char}
    {fault : Option Fault} (h : ByteChars.Answers answers cs fault) :
    ofAnswers answers = .giving .start cs fault := by
  refine ByteChars.iterates.ofIterator_eq (ByteChars.stands_start h) ?_
  have hfault : fault.toList.length ≤ 1 := by cases fault <;> simp
  exact Nat.add_le_add h.length_le hfault

end SExpr
