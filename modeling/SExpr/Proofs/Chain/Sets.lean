import Mathlib
import SExpr.Proofs.Chain

/-!
# Chains as sets

Union, intersection and difference of chains, where membership is equality of values. Equal values
may be written differently, so it matters which of them is kept: it is the one that comes first.

* **`leading`**: the values that no earlier value is equal to.
* **`firsts_eq_leading`**: these are the ones that are kept.
* **`firsts_firsts_append`**, **`firsts_append_firsts`**, **`firsts_filter`**: values may be dropped
  early or late.
* **`union_inter_diff`**: what sets made of chains obey.
-/

namespace SExpr.Chain

/-- The values that no earlier value is equal to, in their order. -/
def leading (vs : List Value) : List Value :=
  (vs.zipIdx.filter fun (v, i) => !(vs.take i).any (· == v)).map Prod.fst

/-! ## Membership -/

theorem any_beq_iff {vs : List Value} {x : Value} :
    vs.any (· == x) = true ↔ ∃ v ∈ vs, Value.eq v x = true :=
  List.any_eq_true

/-- Equal values are members of the same lists. -/
theorem any_beq_congr {u v : Value} (huv : Value.eq u v = true) (vs : List Value) :
    vs.any (· == u) = vs.any (· == v) := by
  have hsub {u v : Value} (huv : Value.eq u v = true) (h : vs.any (· == u) = true) :
      vs.any (· == v) = true := by
    obtain ⟨w, hw, hwu⟩ := any_beq_iff.mp h
    exact any_beq_iff.mpr ⟨w, hw, Value.eq_trans w u v hwu huv⟩
  exact Bool.eq_iff_iff.mpr ⟨hsub huv, hsub (Value.eq_comm u v ▸ huv)⟩

theorem any_beq_of_mem {vs : List Value} {v : Value} (hmem : v ∈ vs) (hv : v.hasNaN = false) :
    vs.any (· == v) = true :=
  any_beq_iff.mpr ⟨v, hmem, by rw [Value.eq_self, hv]; rfl⟩

/-! ## First appearances -/

theorem firsts_concat (vs : List Value) (v : Value) :
    firsts (vs ++ [v]) = if (firsts vs).any (· == v) then firsts vs else firsts vs ++ [v] := by
  rw [firsts, List.foldl_append]
  rfl

/-- A value is dropped only if an equal one was kept. -/
theorem any_firsts (vs : List Value) (x : Value) :
    (firsts vs).any (· == x) = vs.any (· == x) := by
  induction vs using List.reverseRecOn with
  | nil => rfl
  | append_singleton vs v ih =>
    rw [firsts_concat, List.any_append, ← ih]
    split
    · next hv =>
      cases hvx : (v == x) with
      | false => simp [hvx]
      | true =>
        rw [any_beq_congr hvx] at hv
        simp [hv]
    · rw [List.any_append]

/-- A value at the end is one of the leading ones if no earlier value is equal to it. -/
theorem leading_concat (vs : List Value) (v : Value) :
    leading (vs ++ [v]) = if vs.any (· == v) then leading vs else leading vs ++ [v] := by
  -- What comes before a value of `vs` is the same in the longer list.
  have hbefore : ∀ e ∈ vs.zipIdx, (!((vs ++ [v]).take e.2).any (· == e.1)) =
      !(vs.take e.2).any (· == e.1) := by
    intro e he
    have hlt : e.2 < vs.length := by simpa using List.snd_lt_of_mem_zipIdx he
    rw [List.take_append_of_le_length hlt.le]
  rw [leading, List.zipIdx_append, List.filter_append, List.map_append,
    List.filter_congr hbefore, ← leading, List.zipIdx_singleton, Nat.zero_add]
  cases h : vs.any (· == v) <;> simp [h]

/-- **Of equal values the first is kept.** -/
theorem firsts_eq_leading (vs : List Value) : firsts vs = leading vs := by
  induction vs using List.reverseRecOn with
  | nil => rfl
  | append_singleton vs v ih => rw [firsts_concat, leading_concat, any_firsts, ih]

/-- No two of the values that are kept are equal. -/
theorem pairwise_firsts (vs : List Value) :
    (firsts vs).Pairwise fun v w => (v == w) = false := by
  induction vs using List.reverseRecOn with
  | nil => exact .nil
  | append_singleton vs v ih =>
    rw [firsts_concat]
    split
    · exact ih
    · next hv =>
      refine List.pairwise_append.mpr ⟨ih, List.pairwise_singleton _ v, fun u hu w hw => ?_⟩
      rw [List.mem_singleton.mp hw]
      exact Bool.eq_false_iff.mpr fun huv => hv (any_beq_iff.mpr ⟨u, hu, huv⟩)

/-- Values of which no two are equal are all kept. -/
theorem firsts_of_pairwise {vs : List Value} (h : vs.Pairwise fun v w => (v == w) = false) :
    firsts vs = vs := by
  induction vs using List.reverseRecOn with
  | nil => rfl
  | append_singleton vs v ih =>
    obtain ⟨hvs, -, hv⟩ := List.pairwise_append.mp h
    rw [firsts_concat, ih hvs, if_neg]
    rw [any_beq_iff]
    rintro ⟨u, hu, huv⟩
    exact absurd huv (Bool.eq_false_iff.mp (hv u hu v (List.mem_singleton_self v)))

/-! ## Early and late -/

/-- What has been dropped from the first values need not be dropped again. -/
theorem firsts_firsts_append (vs ws : List Value) :
    firsts (firsts vs ++ ws) = firsts (vs ++ ws) := by
  induction ws using List.reverseRecOn with
  | nil => rw [List.append_nil, List.append_nil, firsts_of_pairwise (pairwise_firsts vs)]
  | append_singleton ws w ih =>
    rw [← List.append_assoc, ← List.append_assoc, firsts_concat, firsts_concat, ih]

/-- Nor need what has been dropped from the later ones. -/
theorem firsts_append_firsts (vs ws : List Value) :
    firsts (vs ++ firsts ws) = firsts (vs ++ ws) := by
  induction ws using List.reverseRecOn with
  | nil => rfl
  | append_singleton ws w ih =>
    rw [firsts_concat ws, ← List.append_assoc, firsts_concat (vs ++ ws)]
    split
    · next hw =>
      -- What is dropped from `ws` would be dropped after `vs ++ ws` as well.
      rw [any_firsts] at hw
      rw [ih, if_pos]
      rw [any_firsts, List.any_append, hw, Bool.or_true]
    · rw [← List.append_assoc, firsts_concat, ih]

/-- What is said of equal values alike can be asked before or after. -/
theorem firsts_filter {p : Value → Bool} (hp : ∀ u v, Value.eq u v = true → p u = p v)
    (vs : List Value) : firsts (vs.filter p) = (firsts vs).filter p := by
  induction vs using List.reverseRecOn with
  | nil => rfl
  | append_singleton vs v ih =>
    rw [List.filter_append, firsts_concat]
    -- The last value passes or does not, and so do all values equal to it.
    cases hv : p v with
    | false =>
      rw [List.filter_cons_of_neg (by simp [hv]), List.filter_nil, List.append_nil, ih]
      split
      · rfl
      · simp [hv]
    | true =>
      have hany : (vs.filter p).any (· == v) = vs.any (· == v) := by
        rw [List.any_filter]
        refine List.any_congr rfl fun u => ?_
        cases huv : (u == v) with
        | false => rw [Bool.and_false]
        | true => rw [hp u v huv, hv, Bool.and_true]
      rw [List.filter_cons_of_pos hv, List.filter_nil, firsts_concat, any_firsts, any_firsts, hany,
        ih]
      split
      · rfl
      · simp [hv]

/-! ## The laws -/

variable {a b c : Chain}

/-- The union has the values of both lists, each kept where it comes first. -/
theorem toList_union (a b : Chain) : (a.union b).toList = firsts (a.toList ++ b.toList) :=
  toList_ofList _

/-- The intersection has those of the first list that are members of the second one. -/
theorem toList_inter (a b : Chain) : (a.inter b).toList = (firsts a.toList).filter b.contains :=
  (toList_ofList _).trans (firsts_filter (fun _ _ huv => any_beq_congr huv b.toList) _)

/-- The difference has those of the first list that are not. -/
theorem toList_diff (a b : Chain) : (a.diff b).toList = a.toList.filter fun v => !b.contains v :=
  toList_ofList _

/-- It makes no difference which two of three chains are united first. -/
theorem toList_union_assoc (a b c : Chain) :
    ((a.union b).union c).toList = (a.union (b.union c)).toList := by
  rw [toList_union, toList_union, toList_union, toList_union, firsts_firsts_append,
    firsts_append_firsts, List.append_assoc]

/-- A value in a union comes from one of the two chains. -/
theorem mem_toList_union {v : Value} (h : v ∈ (a.union b).toList) :
    v ∈ a.toList ∨ v ∈ b.toList := by
  rw [toList_union, firsts_eq_leading, leading, List.mem_map] at h
  obtain ⟨e, he, rfl⟩ := h
  exact List.mem_append.mp (List.fst_mem_of_mem_zipIdx (List.mem_of_mem_filter he))

/-- A member of the first chain is in the intersection if it is in the second one, and else in the
difference. -/
theorem contains_inter_eq {v : Value} (hmem : v ∈ a.toList) (hv : v.hasNaN = false) :
    (a.inter b).contains v = !(a.diff b).contains v := by
  have hb (u : Value) (huv : Value.eq u v = true) : b.contains u = b.contains v :=
    any_beq_congr huv b.toList
  -- Membership in either chain comes down to membership in the second one, where equal values do
  -- not differ.
  have hinter : (a.inter b).contains v = b.contains v := by
    rw [contains, toList_inter, Bool.eq_iff_iff, any_beq_iff]
    constructor
    · rintro ⟨u, hu, huv⟩
      rw [← hb u huv]
      exact (List.mem_filter.mp hu).2
    · intro h
      have hfirst : (firsts a.toList).any (· == v) = true :=
        (any_firsts a.toList v).trans (any_beq_of_mem hmem hv)
      obtain ⟨u, hu, huv⟩ := any_beq_iff.mp hfirst
      exact ⟨u, List.mem_filter.mpr ⟨hu, (hb u huv).trans h⟩, huv⟩
  have hdiff : (a.diff b).contains v = !b.contains v := by
    rw [contains, toList_diff, Bool.eq_iff_iff, any_beq_iff]
    constructor
    · rintro ⟨u, hu, huv⟩
      rw [← hb u huv]
      exact (List.mem_filter.mp hu).2
    · intro h
      have hself : Value.eq v v = true := by rw [Value.eq_self, hv]; rfl
      exact ⟨v, List.mem_filter.mpr ⟨hmem, h⟩, hself⟩
  rw [hinter, hdiff, Bool.not_not]

/-- **Chains without NaN are sets, in order.** The union and the intersection have no two equal
values and keep those that come first; the difference keeps the duplicates. A union has the members
of both chains, unions are associative, and a value of the first chain is in exactly one of the
intersection and the difference. -/
theorem union_inter_diff (ha : ∀ v ∈ a.toList, v.hasNaN = false)
    (hb : ∀ v ∈ b.toList, v.hasNaN = false) (hc : ∀ v ∈ c.toList, v.hasNaN = false) :
    (a.union b).toList = leading (a.toList ++ b.toList) ∧
      ((a.union b).toList.Pairwise fun v w => (v == w) = false) ∧
      (∀ x, (a.union b).contains x = (a.contains x || b.contains x)) ∧
      ((a.union b).union c).eq (a.union (b.union c)) = true ∧
      (a.inter b).toList = (leading a.toList).filter b.contains ∧
      ((a.inter b).toList.Pairwise fun v w => (v == w) = false) ∧
      (a.diff b).toList = (a.toList.filter fun v => !b.contains v) ∧
      ∀ v ∈ a.toList, (a.inter b).contains v = !(a.diff b).contains v := by
  refine ⟨?_, ?_, fun x => ?_, ?_, ?_, ?_, toList_diff a b, fun v hv => ?_⟩
  · rw [toList_union, firsts_eq_leading]
  · rw [toList_union]
    exact pairwise_firsts _
  · rw [contains, toList_union, any_firsts, List.any_append]
    rfl
  · -- The two unions have the very same values, each of which is equal to itself.
    rw [Chain.eq, toList_union_assoc, Value.eqAll_self, Bool.not_eq_true', List.any_eq_false]
    intro x hx
    obtain ⟨v, hv, hx⟩ := Value.mem_atomsAll.mp hx
    have hnan : v.hasNaN = false := by
      rcases mem_toList_union hv with hv | hv
      · exact ha v hv
      · rcases mem_toList_union hv with hv | hv
        · exact hb v hv
        · exact hc v hv
    exact List.any_eq_false.mp hnan x hx
  · rw [toList_inter, firsts_eq_leading]
  · rw [toList_inter]
    exact (pairwise_firsts _).filter _
  · exact contains_inter_eq hv (ha v hv)

/-- The two zeros are equal, and so are two spellings of an IRI: the first one stays. -/
theorem union_inter_diff_spellings :
    let zero (negative : Bool) : Value := .atom (.number (.float (.ofMagnitude negative 0)))
    let named (lexical : Option String) : Value := .term 0 (.iri { text := "http://a/x", lexical })
    let a := ofList [zero false, named none, zero true, .vector [zero true], zero false]
    let b := ofList [named (some "a:x"), .nil, .vector [zero false]]
    let c := ofList [zero true, .list [named none]]
    (∀ v ∈ a.toList, v.hasNaN = false) ∧ (∀ v ∈ b.toList, v.hasNaN = false) ∧
      (∀ v ∈ c.toList, v.hasNaN = false) ∧
      (a.union b).toList = [zero false, named none, .vector [zero true], .nil] ∧
      ((a.union b).union c).eq (a.union (b.union c)) = true ∧
      (a.inter b).toList = [named none, .vector [zero true]] ∧
      (a.diff b).toList = [zero false, zero true, zero false] ∧
      ∀ v ∈ a.toList, (a.inter b).contains v = !(a.diff b).contains v := by
  intro zero named a b c
  have ha : ∀ v ∈ a.toList, v.hasNaN = false := by decide
  have hb : ∀ v ∈ b.toList, v.hasNaN = false := by decide
  have hc : ∀ v ∈ c.toList, v.hasNaN = false := by decide
  obtain ⟨hunion, -, -, hassoc, hinter, -, hdiff, hone⟩ := union_inter_diff ha hb hc
  exact ⟨ha, hb, hc, hunion.trans rfl, hassoc, hinter.trans rfl, hdiff.trans rfl, hone⟩

end SExpr.Chain
