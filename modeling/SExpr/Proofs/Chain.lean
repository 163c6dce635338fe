import Mathlib
import SExpr.Chain
import SExpr.Proofs.Equality

/-!
# What chains stand for

Each operation on chains in terms of the plain list of values that a chain stands for. The pairs of
a chain never end in a dot, and the length that a chain keeps is that of its list; every operation
leaves it so.

* **`Chain.Sound`**: what holds of every chain that the operations make.
* **`toList_push`** and its like: the list that an operation makes.
* **`head?_eq`** and its like: what can be asked about a chain, asked about the list.
* **`Walk.next?_eq`**: a walk along a chain comes to the values of its list.
-/

namespace SExpr

/-! ## Comparing lists of values -/

namespace Value

/-- The comparison that the reader defines is that of lists. -/
theorem eqAll_eq_beq (vs ws : List Value) : eqAll vs ws = (vs == ws) := by
  induction vs generalizing ws with
  | nil => cases ws <;> rfl
  | cons v vs ih =>
    cases ws with
    | nil => rfl
    | cons w ws =>
      rw [eqAll, ih, List.cons_beq_cons]
      rfl

theorem any_beq_eq_contains (v : Value) (vs : List Value) : vs.any (· == v) = vs.contains v := by
  rw [List.contains_eq_any_beq]
  exact List.any_congr rfl fun w => eq_comm w v

end Value

/-! ## What chains stand for -/

/-- The pairs along a chain of pairs. -/
def Pair.pairs : Pair → List Pair
  | last v => [last v]
  | cons v tail => cons v tail :: pairs tail
  | dotted v w => [dotted v w]

namespace Chain

def pairs (c : Chain) : List Pair := (c.first.map Pair.pairs).getD []

/-- No pair of the chain ends in a dot, and its length is right where it is known. -/
structure Sound (c : Chain) : Prop where
  proper : ∀ p ∈ c.pairs, p.isProper = true
  counted : ∀ n ∈ c.count?, n = c.toList.length

variable {c : Chain}

theorem toList_of_none (h : c.first = none) : c.toList = [] := by
  rw [toList, h]

theorem toList_of_some {p : Pair} (h : c.first = some p) :
    c.toList = p.head :: toList { first := p.tail? } := by
  rw [toList, h]
  cases p <;> rfl

theorem pairs_of_some {p : Pair} (h : c.first = some p) :
    c.pairs = p :: pairs { first := p.tail? } := by
  rw [pairs, h]
  cases p <;> rfl

theorem sound_empty : empty.Sound := ⟨by simp [pairs, empty], by simp [empty]⟩

/-- To push a value puts it before the others. -/
@[simp]
theorem toList_push (c : Chain) (v : Value) : (c.push v).toList = v :: c.toList := by
  cases h : c.first <;> simp [push, toList, h, Pair.heads]

/-- A chain stays sound when a value is pushed; the length that it keeps grows with it. -/
theorem Sound.push (hc : c.Sound) (v : Value) : (c.push v).Sound := by
  constructor
  · -- The pairs behind the new one are those of the chain itself.
    obtain ⟨p, hp, hpairs⟩ : ∃ p, p.isProper = true ∧ (c.push v).pairs = p :: c.pairs := by
      cases h : c.first with
      | none => exact ⟨.last v, rfl, by simp [Chain.push, pairs, h, Pair.pairs]⟩
      | some p => exact ⟨.cons v p, rfl, by simp [Chain.push, pairs, h, Pair.pairs]⟩
    rw [hpairs]
    exact List.forall_mem_cons.mpr ⟨hp, hc.proper⟩
  · intro n hn
    obtain ⟨k, hk, rfl⟩ := Option.map_eq_some_iff.mp hn
    rw [toList_push, List.length_cons, hc.counted k hk]

/-- **Pairs are shared**: behind a new value come the pairs that the chain had before. -/
theorem tail?_push (c : Chain) (v : Value) : (c.push v).tail? = some { first := c.first } := by
  cases h : c.first <;> simp [tail?, push, h, Pair.tail?]

/-- A chain made of values is made from the last one on. -/
theorem ofList_cons (v : Value) (vs : List Value) : ofList (v :: vs) = (ofList vs).push v := by
  cases h : Pair.ofList? vs <;> simp [ofList, push, Pair.ofList?, h]

@[simp]
theorem toList_ofList (vs : List Value) : (ofList vs).toList = vs := by
  induction vs with
  | nil => rfl
  | cons v vs ih => rw [ofList_cons, toList_push, ih]

theorem sound_ofList (vs : List Value) : (ofList vs).Sound := by
  induction vs with
  | nil => exact ⟨by simp [pairs, ofList, Pair.ofList?], by simp [ofList, toList, Pair.ofList?]⟩
  | cons v vs ih => exact ofList_cons v vs ▸ ih.push v

theorem head?_eq (c : Chain) : c.head? = c.toList.head? := by
  cases h : c.first with
  | none => rw [head?, h, toList_of_none h]; rfl
  | some p => rw [head?, h, toList_of_some h]; rfl

theorem map_toList_tail? (c : Chain) : c.tail?.map toList = c.toList.tail? := by
  cases h : c.first with
  | none => rw [tail?, h, toList_of_none h]; rfl
  | some p => rw [tail?, h, toList_of_some h]; rfl

/-- What comes after the first value is sound as well. -/
theorem Sound.of_tail? (hc : c.Sound) {d : Chain} (hd : c.tail? = some d) : d.Sound := by
  obtain ⟨p, hp, rfl⟩ := Option.map_eq_some_iff.mp hd
  refine ⟨fun q hq => hc.proper q ?_, by simp⟩
  rw [pairs_of_some hp]
  exact List.mem_cons_of_mem p hq

theorem isEmpty_eq (c : Chain) : c.isEmpty = c.toList.isEmpty := by
  cases h : c.first with
  | none => rw [isEmpty, h, toList_of_none h]; rfl
  | some p => rw [isEmpty, h, toList_of_some h]; rfl

/-- Chains are equal if the lists are that they stand for. -/
theorem eq_eq (c d : Chain) : c.eq d = (c.toList == d.toList) :=
  Value.eqAll_eq_beq _ _

/-- The length of a chain, kept or counted, is the number of its values. -/
theorem Sound.length_eq (hc : c.Sound) : c.length = c.toList.length := by
  cases h : c.count? with
  | none => rw [length, h, Option.getD_none]
  | some n => rw [length, h, Option.getD_some, hc.counted n h]

@[simp]
theorem toList_measured (c : Chain) : c.measured.toList = c.toList := rfl

theorem Sound.measured (hc : c.Sound) : c.measured.Sound := by
  refine ⟨hc.proper, fun n hn => ?_⟩
  rw [← Option.some.inj hn, hc.length_eq, toList_measured]

/-! ### Walks -/

/-- The values that a walk has not come to yet. -/
def Walk.left (w : Walk) : List Value := toList { first := w.pair? }

theorem left_walk (c : Chain) : c.walk.left = c.toList := rfl

/-- One step of a walk gives the first of the values left, and leaves the others. -/
theorem Walk.next?_eq (w : Walk) :
    w.next?.map (Prod.map id left) = w.left.head?.map fun v => (v, w.left.tail) := by
  cases h : w.pair? with
  | none => rw [next?, h, left, toList_of_none h]; rfl
  | some p => rw [next?, h, left, toList_of_some h]; rfl

/-- The value at an index is found by so many steps of a walk. -/
theorem Walk.get?_eq (w : Walk) (i : Nat) : w.get? i = w.left[i]? := by
  induction i generalizing w with
  | zero =>
    cases h : w.pair? with
    | none => rw [get?, next?, h, left, toList_of_none h]; rfl
    | some p => rw [get?, next?, h, left, toList_of_some h]; rfl
  | succ i ih =>
    cases h : w.pair? with
    | none => rw [get?, next?, h, left, toList_of_none h]; rfl
    | some p =>
      rw [get?, next?, h, left, toList_of_some h, List.getElem?_cons_succ]
      exact ih ⟨p.tail?⟩

theorem get?_eq (c : Chain) (i : Nat) : c.get? i = c.toList[i]? := c.walk.get?_eq i

/-! ### Sets -/

theorem contains_eq (c : Chain) (v : Value) : c.contains v = c.toList.contains v :=
  Value.any_beq_eq_contains v _

/-- To keep the first of equal values is to erase the duplicates after it. -/
theorem firsts_eq_eraseDups (vs : List Value) : firsts vs = vs.eraseDups := by
  -- `eraseDups` collects in reverse and has the new value on the left of each comparison.
  have hloop (out : List Value) :
      vs.foldl (fun out v => if out.any (· == v) then out else out ++ [v]) out =
        List.eraseDupsBy.loop (· == ·) vs out.reverse := by
    induction vs generalizing out with
    | nil => simp [List.eraseDupsBy.loop]
    | cons v vs ih =>
      rw [List.foldl_cons, ih, List.eraseDupsBy.loop, List.any_reverse, List.any_beq,
        Value.any_beq_eq_contains]
      cases out.contains v <;> simp
  exact hloop []

end Chain

end SExpr
