import SExpr.Proofs.Equality

/-!
# Shapes of equal values

The shape of a value is how its lists and vectors are nested, and its leaves are the atoms and terms
in them. Values are equal if they have one shape and equal leaves in it. So equality goes from the
parts of a list or vector to the whole, except that a NaN beside the parts makes it fail.

* **`Value.eq_iff_shape`**: equality by shape and leaves.
* **`Value.eqAll_insertIdx`**: values put into lists.
* **`Value.eq_congruence`**: the laws of equality.
-/

namespace SExpr

/-- How a value is nested, whatever its leaves are. -/
inductive Shape where
  | atom
  | term
  | list (items : List Shape)
  | vector (items : List Shape)

namespace Value

/-! ## Shape and leaves -/

mutual

def shape : Value → Shape
  | atom _ => .atom
  | list items => .list (shapeAll items)
  | vector items => .vector (shapeAll items)
  | term _ _ => .term

/-- The shapes of some values. -/
def shapeAll : List Value → List Shape
  | [] => []
  | v :: vs => shape v :: shapeAll vs

end

mutual

/-- The atoms and the terms in a value, in reading order. -/
def leaves : Value → List Value
  | atom a => [atom a]
  | list items => leavesAll items
  | vector items => leavesAll items
  | term h t => [term h t]

/-- The atoms and the terms in some values, in reading order. -/
def leavesAll : List Value → List Value
  | [] => []
  | v :: vs => leaves v ++ leavesAll vs

end

mutual

/-- Values of one shape have as many leaves. -/
theorem length_leaves : (v w : Value) → v.shape = w.shape → v.leaves.length = w.leaves.length
  | atom _, atom _, _ => rfl
  | list vs, list ws, h => length_leavesAll vs ws (Shape.list.inj h)
  | vector vs, vector ws, h => length_leavesAll vs ws (Shape.vector.inj h)
  | term _ _, term _ _, _ => rfl

/-- Lists of one shape have as many leaves. -/
theorem length_leavesAll : (vs ws : List Value) → shapeAll vs = shapeAll ws →
    (leavesAll vs).length = (leavesAll ws).length
  | [], [], _ => rfl
  | v :: vs, w :: ws, h => by
    rw [shapeAll, shapeAll, List.cons.injEq] at h
    rw [leavesAll, leavesAll, List.length_append, List.length_append, length_leaves v w h.1,
      length_leavesAll vs ws h.2]

end

/-- Two lists go with two others pair by pair if the first ones do and the second ones do. -/
theorem forall₂_append_iff {α : Type} {r : α → α → Prop} {xs ys xs' ys' : List α}
    (h : xs.length = ys.length) :
    List.Forall₂ r (xs ++ xs') (ys ++ ys') ↔ List.Forall₂ r xs ys ∧ List.Forall₂ r xs' ys' := by
  refine ⟨fun hall => ⟨?_, ?_⟩, fun ⟨hxs, hxs'⟩ => List.rel_append hxs hxs'⟩
  · simpa [h] using List.forall₂_take xs.length hall
  · simpa [h] using List.forall₂_drop xs.length hall

mutual

/-- **Equality by shape and leaves**: values are equal if and only if they are nested alike and
their leaves are equal one by one. -/
theorem eq_iff_shape : (v w : Value) → (eq v w = true ↔
    v.shape = w.shape ∧ List.Forall₂ (fun a b => eq a b = true) v.leaves w.leaves)
  | atom a, atom b => by simp [shape, leaves]
  | list vs, list ws => by
    rw [eq, eqAll_iff_shape vs ws, shape, shape, Shape.list.injEq, leaves, leaves]
  | vector vs, vector ws => by
    rw [eq, eqAll_iff_shape vs ws, shape, shape, Shape.vector.injEq, leaves, leaves]
  | term _ t, term _ u => by simp [shape, leaves]
  | atom _, list _ | atom _, vector _ | atom _, term _ _ => by simp [eq, shape]
  | list _, atom _ | list _, vector _ | list _, term _ _ => by simp [eq, shape]
  | vector _, atom _ | vector _, list _ | vector _, term _ _ => by simp [eq, shape]
  | term _ _, atom _ | term _ _, list _ | term _ _, vector _ => by simp [eq, shape]

/-- Lists are equal if they have one shape and equal leaves, item by item. -/
theorem eqAll_iff_shape : (vs ws : List Value) → (eqAll vs ws = true ↔
    shapeAll vs = shapeAll ws ∧
      List.Forall₂ (fun a b => eq a b = true) (leavesAll vs) (leavesAll ws))
  | [], [] => by simp [eqAll, leavesAll]
  | [], _ :: _ => by simp [eqAll, shapeAll]
  | _ :: _, [] => by simp [eqAll, shapeAll]
  | v :: vs, w :: ws => by
    rw [eqAll, Bool.and_eq_true, eq_iff_shape v w, eqAll_iff_shape vs ws, shapeAll, shapeAll,
      List.cons.injEq, leavesAll, leavesAll, and_and_and_comm]
    -- The leaves of the two first values end at the same place.
    exact and_congr_right fun h => (forall₂_append_iff (length_leaves v w h.1)).symm

end

/-! ## Values in lists -/

/-- **Values put into lists** at one place make them equal if and only if the values are equal and
the lists were. -/
theorem eqAll_insertIdx (v w : Value) {vs ws : List Value} {i : Nat} (hvs : i ≤ vs.length)
    (hws : i ≤ ws.length) :
    eqAll (vs.insertIdx i v) (ws.insertIdx i w) = (eq v w && eqAll vs ws) := by
  induction i generalizing vs ws with
  | zero => rw [List.insertIdx_zero, List.insertIdx_zero, eqAll]
  | succ i ih =>
    cases vs with
    | nil => cases hvs
    | cons a vs =>
      cases ws with
      | nil => cases hws
      | cons b ws =>
        rw [List.insertIdx_succ_cons, List.insertIdx_succ_cons, eqAll, eqAll,
          ih (Nat.le_of_succ_le_succ hvs) (Nat.le_of_succ_le_succ hws), Bool.and_left_comm]

/-- **Equality of values is an equivalence except for NaN**, and a congruence. It is symmetric and
transitive, and a value is equal to itself if and only if there is no NaN in it. Equal values are
nested alike, with equal leaves. Values put into one list or vector at the same place make equal
results if and only if they are equal and there is no NaN beside them. -/
theorem eq_congruence :
    (∀ v w : Value, (v == w) = (w == v)) ∧
      (∀ u v w : Value, (u == v) = true → (v == w) = true → (u == w) = true) ∧
      (∀ v : Value, (v == v) = true ↔ v.hasNaN = false) ∧
      (∀ v w : Value, (v == w) = true ↔
        v.shape = w.shape ∧ List.Forall₂ (fun a b => (a == b) = true) v.leaves w.leaves) ∧
      ∀ (items : List Value) (i : Nat), i ≤ items.length → ∀ v w : Value,
        ((list (items.insertIdx i v) == list (items.insertIdx i w)) =
          ((v == w) && !(list items).hasNaN)) ∧
        ((vector (items.insertIdx i v) == vector (items.insertIdx i w)) =
          ((v == w) && !(vector items).hasNaN)) := by
  refine ⟨eq_comm, eq_trans, fun v => ?_, eq_iff_shape, fun items i hi v w => ?_⟩
  · show eq v v = true ↔ _
    rw [eq_self, Bool.not_eq_true']
  · have hinsert : eqAll (items.insertIdx i v) (items.insertIdx i w) =
        (eq v w && eqAll items items) := eqAll_insertIdx v w hi hi
    exact ⟨hinsert.trans (congrArg _ (eq_self (list items))),
      hinsert.trans (congrArg _ (eq_self (vector items)))⟩

/-- Other spellings of an IRI and the other zero, put after a vector. -/
theorem eq_congruence_zeros :
    let zero (negative : Bool) : Value := .atom (.number (.float (.ofMagnitude negative 0)))
    let named (lexical : Option String) : Value := .term 0 (.iri { text := "http://a/x", lexical })
    let u := list [zero false, vector [named none]]
    let v := list [zero true, vector [named (some "a:x")]]
    let w := list [zero false, vector [named (some "b:x")]]
    let items := [vector [.nil]]
    (u == v) = true ∧ (v == w) = true ∧ (u == w) = true ∧ u.shape = w.shape ∧
      1 ≤ items.length ∧ (list (items.insertIdx 1 u) == list (items.insertIdx 1 w)) = true := by
  intro zero named u v w items
  have huv : (u == v) = true := by decide
  have hvw : (v == w) = true := by decide
  have hone : 1 ≤ items.length := by decide
  obtain ⟨-, htrans, -, hshape, hinsert⟩ := eq_congruence
  have huw := htrans u v w huv hvw
  refine ⟨huv, hvw, huw, ((hshape u w).mp huw).1, hone, ?_⟩
  rw [(hinsert items 1 hone u w).1, huw]
  decide

/-- **Beside a NaN**, equal values make lists and vectors that are not equal. -/
theorem insertIdx_beside_nan :
    let one : Value := .atom (.number (.integer 1))
    let items : List Value := [.atom (.number (.float .nan))]
    0 ≤ items.length ∧ (one == one) = true ∧
      (list (items.insertIdx 0 one) == list (items.insertIdx 0 one)) = false ∧
      (vector (items.insertIdx 0 one) == vector (items.insertIdx 0 one)) = false := by
  decide

end Value

end SExpr
