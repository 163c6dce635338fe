import Mathlib
import SExpr.Value

/-!
# Parts of values

What a value is made of: the atoms and the lists in it, and how deep the lists are nested.

* **`Value.atoms`**, **`Value.lists`**: the atoms and the lists in a value.
* **`Value.Built`**: lists of leaves, nested at most so deep.
-/

namespace SExpr.Value

/-- The terms in a list are those in its items. -/
theorem mem_termsAll {vs : List Value} {t : Value} : t ∈ termsAll vs ↔ ∃ v ∈ vs, t ∈ v.terms := by
  induction vs with
  | nil => simp [termsAll]
  | cons v vs ih => simp [termsAll, ih]

/-! ## Atoms -/

mutual

/-- The atoms in a value, in reading order. -/
def atoms : Value → List Atom
  | atom a => [a]
  | list items => atomsAll items
  | vector items => atomsAll items
  | term _ _ => []

/-- The atoms in some values, in reading order. -/
def atomsAll : List Value → List Atom
  | [] => []
  | v :: vs => atoms v ++ atomsAll vs

end

theorem mem_atomsAll {vs : List Value} {a : Atom} : a ∈ atomsAll vs ↔ ∃ v ∈ vs, a ∈ v.atoms := by
  induction vs with
  | nil => simp [atomsAll]
  | cons v vs ih => simp [atomsAll, ih]

/-- What holds of the atoms in a list holds of those in each item. -/
theorem forall_atoms_of_mem {p : Atom → Prop} {items : List Value}
    (h : ∀ a ∈ (list items).atoms, p a) : ∀ v ∈ items, ∀ a ∈ v.atoms, p a := by
  intro v hv a ha
  rw [atoms] at h
  exact h a (mem_atomsAll.mpr ⟨v, hv, ha⟩)

/-! ## Lists -/

mutual

/-- The lists in a value, each before those in it. -/
def lists : Value → List (List Value)
  | atom _ => []
  | list items => items :: listsAll items
  | vector items => listsAll items
  | term _ _ => []

/-- The lists in some values, each before those in it. -/
def listsAll : List Value → List (List Value)
  | [] => []
  | v :: vs => lists v ++ listsAll vs

end

/-- The lists in values are those of each. -/
theorem mem_listsAll {vs items : List Value} :
    items ∈ listsAll vs ↔ ∃ v ∈ vs, items ∈ v.lists := by
  induction vs with
  | nil => simp [listsAll]
  | cons v vs ih => simp [listsAll, ih]

theorem mem_lists_of_mem {items part : List Value} {v : Value} (hv : v ∈ items)
    (hpart : part ∈ v.lists) : part ∈ (list items).lists := by
  rw [lists]
  exact List.mem_cons_of_mem items (mem_listsAll.mpr ⟨v, hv, hpart⟩)

/-! ## Depth -/

/-- Lists of leaves, nested at most so deep. -/
inductive Built (leaf : Value → Prop) : Nat → Value → Prop where
  | leaf {room : Nat} {v : Value} (h : leaf v) : Built leaf room v
  | list {room : Nat} {items : List Value} (h : ∀ v ∈ items, Built leaf room v) :
      Built leaf (room + 1) (.list items)

/-- What passes from a list to its items passes down to the leaves. -/
theorem Built.and {leaf p : Value → Prop} (hp : ∀ items, p (.list items) → ∀ v ∈ items, p v)
    {room : Nat} {v : Value} (h : Built leaf room v) (hv : p v) :
    Built (fun v => leaf v ∧ p v) room v := by
  induction h with
  | leaf h => exact .leaf ⟨h, hv⟩
  | list _ ih => exact .list fun w hw => ih w hw (hp _ hv w hw)

end SExpr.Value
