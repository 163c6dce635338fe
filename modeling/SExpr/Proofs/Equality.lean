import Mathlib
import SExpr.Proofs.Parts

/-!
# Equality of values

Values are compared by what they mean: the spelling of an IRI and the quotes of a literal do not
matter, and the two zeros are equal. What is compared so is compared consistently, except that a
NaN differs from itself.

* **`Value.eq_comm`**: equality is symmetric.
* **`Value.eq_trans`**: it is transitive.
* **`Value.eq_self`**: a value is equal to itself unless there is a NaN in it.
-/

namespace SExpr

/-! ## Symmetry -/

theorem Binary64.eq_comm (x y : Binary64) : x.eq y = y.eq x := by
  rw [eq, eq, Bool.and_comm (!x.isNaN), BEq.comm (a := x.bits), Bool.and_comm x.isZero]

theorem Number.eq_comm (m n : Number) : m.eq n = n.eq m := by
  cases m <;> cases n <;> try rfl
  · exact BEq.comm
  · exact BEq.comm
  · exact Binary64.eq_comm _ _

/-- Atoms are equal in either order, if they are of the same kind. -/
theorem Atom.eq_comm (a b : Atom) : a.eq b = b.eq a := by
  cases a <;> cases b <;> try rfl
  · exact BEq.comm
  · exact BEq.comm
  · next s p t q => rw [eq, eq, BEq.comm (a := s), decide_eq_decide.mpr Eq.comm]
  · exact BEq.comm
  · exact Number.eq_comm _ _

theorem Iri.eq_comm (i j : Iri) : i.eq j = j.eq i := decide_eq_decide.mpr Eq.comm

theorem Literal.eq_comm (l m : Literal) : l.eq m = m.eq l := by
  rw [eq, eq, decide_eq_decide.mpr (Eq.comm (a := l.value)),
    decide_eq_decide.mpr (Eq.comm (a := l.language))]
  cases l.datatype <;> cases m.datatype <;> try rfl
  · exact congrArg _ (Iri.eq_comm _ _)

theorem Term.eq_comm (t u : Term) : t.eq u = u.eq t := by
  cases t <;> cases u <;> try rfl
  · exact Iri.eq_comm _ _
  · exact Literal.eq_comm _ _
  · exact decide_eq_decide.mpr Eq.comm
  · exact decide_eq_decide.mpr Eq.comm

namespace Value

mutual

/-- **Equality of values is symmetric.** -/
theorem eq_comm : (v w : Value) → eq v w = eq w v
  | atom a, atom b => Atom.eq_comm a b
  | list vs, list ws => eqAll_comm vs ws
  | vector vs, vector ws => eqAll_comm vs ws
  | term _ t, term _ u => Term.eq_comm t u
  | atom _, list _ | atom _, vector _ | atom _, term _ _ => rfl
  | list _, atom _ | list _, vector _ | list _, term _ _ => rfl
  | vector _, atom _ | vector _, list _ | vector _, term _ _ => rfl
  | term _ _, atom _ | term _ _, list _ | term _ _, vector _ => rfl

/-- Lists are compared item by item, in either order. -/
theorem eqAll_comm : (vs ws : List Value) → eqAll vs ws = eqAll ws vs
  | [], [] => rfl
  | [], _ :: _ => rfl
  | _ :: _, [] => rfl
  | v :: vs, w :: ws => by rw [eqAll, eqAll, eq_comm v w, eqAll_comm vs ws]

end

end Value

/-! ## Transitivity -/

/-- Equality of floats is transitive; the two zeros are the only numbers with two forms. -/
theorem Binary64.eq_trans {x y z : Binary64} (hxy : x.eq y = true) (hyz : y.eq z = true) :
    x.eq z = true := by
  rw [eq, Bool.and_eq_true, Bool.and_eq_true, Bool.or_eq_true, Bool.and_eq_true, beq_iff_eq] at *
  obtain ⟨⟨hx, -⟩, hxy⟩ := hxy
  obtain ⟨⟨-, hz⟩, hyz⟩ := hyz
  refine ⟨⟨hx, hz⟩, ?_⟩
  -- Numbers with the same bits are zero together.
  obtain hxy | ⟨hx, hy⟩ := hxy
  · obtain rfl : x = y := congrArg mk hxy
    exact hyz
  · obtain hyz | ⟨-, hz⟩ := hyz
    · obtain rfl : y = z := congrArg mk hyz
      exact .inr ⟨hx, hy⟩
    · exact .inr ⟨hx, hz⟩

/-- Numbers of different kinds are never equal, so each kind is by itself. -/
theorem Number.eq_trans {l m n : Number} (hlm : l.eq m = true) (hmn : m.eq n = true) :
    l.eq n = true := by
  cases l <;> cases m <;> try cases hlm
  all_goals cases n <;> try cases hmn
  · exact BEq.trans hlm hmn
  · exact BEq.trans hlm hmn
  · exact Binary64.eq_trans hlm hmn

/-- Atoms of different kinds are never equal. -/
theorem Atom.eq_trans {a b c : Atom} (hab : a.eq b = true) (hbc : b.eq c = true) :
    a.eq c = true := by
  cases a <;> cases b <;> try cases hab
  all_goals cases c <;> try cases hbc
  · rfl
  · exact BEq.trans hab hbc
  · exact BEq.trans hab hbc
  · rw [eq, Bool.and_eq_true, beq_iff_eq, decide_eq_true_eq] at *
    exact ⟨hab.1.trans hbc.1, hab.2.trans hbc.2⟩
  · exact BEq.trans hab hbc
  · exact Number.eq_trans hab hbc

theorem Iri.eq_iff {i j : Iri} : i.eq j = true ↔ i.text = j.text := decide_eq_true_iff

/-- Literals are equal if their values, languages and the texts of their datatypes are. -/
theorem Literal.eq_iff {l m : Literal} : l.eq m = true ↔
    l.value = m.value ∧ l.language = m.language ∧
      l.datatype.map Iri.text = m.datatype.map Iri.text := by
  rw [eq, Bool.and_eq_true, Bool.and_eq_true, decide_eq_true_eq, decide_eq_true_eq, and_assoc]
  cases l.datatype <;> cases m.datatype <;> simp [Iri.eq_iff]

/-- Terms of different kinds are never equal. -/
theorem Term.eq_trans {t u w : Term} (htu : t.eq u = true) (huw : u.eq w = true) :
    t.eq w = true := by
  cases t <;> cases u <;> try cases htu
  all_goals cases w <;> try cases huw
  · exact Iri.eq_iff.mpr ((Iri.eq_iff.mp htu).trans (Iri.eq_iff.mp huw))
  · obtain ⟨hvalue, hlanguage, hdatatype⟩ := Literal.eq_iff.mp htu
    obtain ⟨hvalue', hlanguage', hdatatype'⟩ := Literal.eq_iff.mp huw
    exact Literal.eq_iff.mpr
      ⟨hvalue.trans hvalue', hlanguage.trans hlanguage', hdatatype.trans hdatatype'⟩
  · rw [eq, decide_eq_true_eq] at *
    exact htu.trans huw
  · rw [eq, decide_eq_true_eq] at *
    exact htu.trans huw

namespace Value

mutual

/-- **Equality of values is transitive.** -/
theorem eq_trans : (u v w : Value) → eq u v = true → eq v w = true → eq u w = true
  | atom _, atom _, atom _, huv, hvw => Atom.eq_trans huv hvw
  | list us, list vs, list ws, huv, hvw => eqAll_trans us vs ws huv hvw
  | vector us, vector vs, vector ws, huv, hvw => eqAll_trans us vs ws huv hvw
  | term _ _, term _ _, term _ _, huv, hvw => Term.eq_trans huv hvw

/-- Lists are compared item by item. -/
theorem eqAll_trans : (us vs ws : List Value) → eqAll us vs = true → eqAll vs ws = true →
    eqAll us ws = true
  | [], [], [], _, _ => rfl
  | u :: us, v :: vs, w :: ws, huv, hvw => by
    rw [eqAll, Bool.and_eq_true] at *
    exact ⟨eq_trans u v w huv.1 hvw.1, eqAll_trans us vs ws huv.2 hvw.2⟩

end

end Value

/-! ## Reflexivity -/

/-- Of the floats only NaN differs from itself. -/
theorem Binary64.eq_self (x : Binary64) : x.eq x = !x.isNaN := by
  rw [eq, beq_self_eq_true, Bool.true_or, Bool.and_true, Bool.and_self]

/-- The atom is a number that is no number. -/
def Atom.isNaN : Atom → Bool
  | number (.float x) => x.isNaN
  | _ => false

/-- Of the atoms only NaN differs from itself. -/
theorem Atom.eq_self (a : Atom) : a.eq a = !a.isNaN := by
  cases a with
  | nil => rfl
  | bool b => exact beq_self_eq_true b
  | char c => exact beq_self_eq_true c
  | string s p => simp [eq, isNaN]
  | symbol s => exact beq_self_eq_true s
  | number n =>
    cases n with
    | integer n => exact beq_self_eq_true n
    | rational q => exact beq_self_eq_true q
    | float x => exact Binary64.eq_self x

/-- All terms are equal to themselves. -/
theorem Term.eq_self (t : Term) : t.eq t = true := by
  cases t with
  | iri i => exact Iri.eq_iff.mpr rfl
  | literal l => exact Literal.eq_iff.mpr ⟨rfl, rfl, rfl⟩
  | blank b => exact decide_eq_true rfl
  | var v => exact decide_eq_true rfl

namespace Value

/-- There is a NaN in the value, at whatever depth. -/
def hasNaN (v : Value) : Bool := v.atoms.any Atom.isNaN

mutual

/-- **A value is equal to itself** unless there is a NaN in it. -/
theorem eq_self : (v : Value) → eq v v = !v.hasNaN
  | atom a => by
    rw [eq, hasNaN, atoms, List.any_cons, List.any_nil, Bool.or_false]
    exact Atom.eq_self a
  | list items => eqAll_self items
  | vector items => eqAll_self items
  | term _ t => Term.eq_self t

theorem eqAll_self : (vs : List Value) → eqAll vs vs = !(atomsAll vs).any Atom.isNaN
  | [] => rfl
  | v :: vs => by
    rw [eqAll, eq_self v, eqAll_self vs, atomsAll, List.any_append, Bool.not_or, hasNaN]

end

end Value

end SExpr
