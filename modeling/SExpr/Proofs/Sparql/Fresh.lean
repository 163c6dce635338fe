import SExpr.Proofs.Numeral
import SExpr.Proofs.Sparql.Identity

/-!
# Terms without a name

A blank node or a variable that has no name gets a label, which is one that nothing has been named
so far. Nothing keeps it from being named later: the label is not remembered as a name.

* **`find?_label`**: the label is not in use when it is given.
* **`not_eq_of_anonymous`**, **`eq_iff_of_anonymous`**: two terms, one of which has no name.
* **`anonymous_fresh`**: a term without a name is equal to no other, unless its label is used as a
  name afterwards.
-/

namespace SExpr.Dialect.Sparql

/-! ## Labels -/

/-- The word mentions a blank node or a variable, and has no name for it. -/
def isAnonymous (text : List Char) : Bool := (mentioned? text).any fun t => (nameOf? t).isNone

/-- The name or the label of a term. -/
def label? (v : Value) : Option Name := v.term?.bind nameOf?

/-- What variables of one name can differ in: whether they are distinguished, and existential. -/
def flags (v : Value) : Bool × Bool :=
  match v.term? with
  | some (.var v) => (v.distinguished, v.existential)
  | _ => (false, false)

/-- If a number within reach is free, a free number is found. -/
theorem freeNumber_free (taken : Nat → Bool) {rounds n k : Nat} (hle : n ≤ k)
    (hlt : k ≤ n + rounds) (hk : taken k = false) : taken (freeNumber taken rounds n) = false := by
  induction rounds generalizing n with
  | zero =>
    obtain rfl : n = k := by omega
    exact hk
  | succ rounds ih =>
    unfold freeNumber
    split
    · next hn =>
      have hne : n ≠ k := by
        rintro rfl
        rw [hk] at hn
        cases hn
      apply ih
      · omega
      · omega
    · next hn => exact Bool.eq_false_iff.mpr hn

/-- Different numbers make different labels. -/
theorem numbered_injective (stem : String) : Function.Injective fun k : Nat => s!"{stem}{k}" := by
  intro j k h
  have hlists : stem.toList ++ Nat.toDigits 10 j = stem.toList ++ Nat.toDigits 10 k := by
    rw [← Numeral.toList_numbered, ← Numeral.toList_numbered]
    exact congrArg String.toList h
  have hdigits : some j = some k := by
    rw [← Numeral.natural?_toDigits, ← Numeral.natural?_toDigits, List.append_cancel_left hlists]
  exact Option.some.inj hdigits

/-- Of more numbers than there are names in a table, one makes a name that is not in it. -/
theorem exists_unused {name : Nat → String} (hname : Function.Injective name)
    (table : List (String × Value)) (n : Nat) :
    ∃ k, n ≤ k ∧ k ≤ n + table.length ∧ (table.lookup (name k)).isSome = false := by
  -- Otherwise the names of these numbers would all be in the table, which is too short for them.
  by_contra hnone
  have hused : ∀ i, i ≤ table.length → name (n + i) ∈ table.map Prod.fst := by
    intro i hi
    by_contra hmem
    apply hnone
    refine ⟨n + i, by omega, by omega, ?_⟩
    rw [Option.isSome_eq_false_iff, Option.isNone_iff_eq_none, List.lookup_eq_none_iff]
    rintro ⟨used, v⟩ hv
    apply bne_iff_ne.mpr
    rintro rfl
    exact hmem (List.mem_map_of_mem hv)
  have hnodup : ((List.range (table.length + 1)).map fun i => name (n + i)).Nodup :=
    List.nodup_range.map fun i j h => Nat.add_left_cancel (hname h)
  have hsubset : ((List.range (table.length + 1)).map fun i => name (n + i)) ⊆
      table.map Prod.fst := by
    intro used hmem
    obtain ⟨i, hi, rfl⟩ := List.mem_map.mp hmem
    exact hused i (Nat.le_of_lt_succ (List.mem_range.mp hi))
  have hlength := (List.subperm_of_subset hnodup hsubset).length_le
  simp only [List.length_map, List.length_range] at hlength
  omega

/-- The label that is given is not in the table. -/
theorem lookup_freeNumberFor (stem : String) (table : List (String × Value)) (n : Nat) :
    table.lookup s!"{stem}{freeNumberFor stem table n}" = none := by
  obtain ⟨k, hle, hlt, hk⟩ := exists_unused (numbered_injective stem) table n
  have hfree := freeNumber_free (fun k => (table.lookup s!"{stem}{k}").isSome) hle hlt hk
  exact Option.isNone_iff_eq_none.mp (Option.isSome_eq_false_iff.mp hfree)

/-- The name that a label would be. -/
def labelName : Term → Nat → Name
  | .blank _, k => .blank s!"b{k}"
  | _, k => .var s!"_g{k}"

/-- What has got a label has it for its name. -/
theorem nameOf?_labelled {t : Term} (ht : isNode t = true) (k : Nat) :
    nameOf? (labelled t k) = some (labelName t k) := by
  cases t with
  | iri i => cases ht
  | literal l => cases ht
  | blank b => simp [nameOf?, labelled, labelName]
  | var v => simp [nameOf?, labelled, labelName]

/-- Labels of the same name have the same number. -/
theorem labelName_inj {t u : Term} {j k : Nat} (h : labelName t j = labelName u k) : j = k := by
  have hblank (h : Name.blank s!"b{j}" = .blank s!"b{k}") : j = k :=
    numbered_injective "b" (Name.blank.inj h)
  have hvar (h : Name.var s!"_g{j}" = .var s!"_g{k}") : j = k :=
    numbered_injective "_g" (Name.var.inj h)
  cases t <;> cases u <;> first | exact hblank h | exact hvar h | cases h

/-- **A label** is not in use when it is given. -/
theorem find?_label {t : Term} (ht : isNode t = true) (m : Memory) :
    m.find? (labelName t (m.nextLabel t)) = none := by
  cases t with
  | iri i => cases ht
  | literal l => cases ht
  | blank b => exact lookup_freeNumberFor "b" m.blanks m.fresh
  | var v => exact lookup_freeNumberFor "_g" m.vars m.fresh

/-- Blank nodes and variables are equal only if they are written the same. -/
theorem eq_iff_of_isNode {h k : Nat} {t u : Term} (hnode : isNode t = true ∨ isNode u = true) :
    (Value.term h t).eq (.term k u) = true ↔ t = u := by
  rw [Value.eq]
  cases t <;> cases u <;> simp_all [Term.eq, isNode]

theorem isNode_labelled {t : Term} (ht : isNode t = true) (k : Nat) :
    isNode (labelled t k) = true := by
  cases t <;> exact ht

/-! ## Mentions -/

variable {a b : Session Memory} {v w : Value}

/-- A term without a name is new and has a label. -/
theorem eq_labelled_of_anonymous (hm : a.memory.Fair) (hv : termAt? a = some v)
    (hanonymous : isAnonymous (spelled a) = true) :
    ∃ u, isNode u = true ∧
      v = .term a.memory.handles (labelled u (a.memory.nextLabel u)) := by
  cases mentioned_at hm hv with
  | plain word _ _ _ =>
    rw [isAnonymous, word] at hanonymous
    cases hanonymous
  | named hname _ _ =>
    obtain ⟨t, word, hn⟩ := Option.bind_eq_some_iff.mp hname
    rw [isAnonymous, word, Option.any_some, hn] at hanonymous
    cases hanonymous
  | anonymous word _ _ => exact ⟨_, isNode_of_mentioned word, rfl⟩

/-- A term without a name is equal to none before it. -/
theorem not_eq_of_anonymous (ha : a.memory.Fair) (hb : b.memory.Fair)
    (hgrows : (sparql.memoryAt a).Grows b.memory) (hv : termAt? a = some v)
    (hw : termAt? b = some w) (hanonymous : isAnonymous (spelled b) = true) : v.eq w = false := by
  obtain ⟨u, hu, rfl⟩ := eq_labelled_of_anonymous hb hw hanonymous
  have hnode := isNode_labelled hu (b.memory.nextLabel u)
  have hlabel := nameOf?_labelled hu (b.memory.nextLabel u)
  apply Bool.eq_false_iff.mpr
  intro heq
  cases mentioned_at ha hv with
  | plain _ kind _ _ =>
    obtain rfl := (eq_iff_of_isNode (.inr hnode)).mp heq
    rw [hnode] at kind
    cases kind
  | @named _ t n _ hn hfind =>
    -- The name would have been in use when the label was given.
    obtain rfl := (eq_iff_of_isNode (.inr hnode)).mp heq
    obtain rfl : labelName u (b.memory.nextLabel u) = n := Option.some.inj (hlabel.symm.trans hn)
    have hfind := hgrows.keeps _ _ hfind
    rw [find?_label hu] at hfind
    cases hfind
  | @anonymous u' word _ memory =>
    -- Numbers go up from one label to the next.
    have hsame := (eq_iff_of_isNode (.inr hnode)).mp heq
    have hlabels : labelName u' (a.memory.nextLabel u') = labelName u (b.memory.nextLabel u) := by
      apply Option.some.inj
      rw [← nameOf?_labelled (isNode_of_mentioned word), ← hlabel, hsame]
    have hnumbers := labelName_inj hlabels
    have hfresh : (sparql.memoryAt a).fresh = a.memory.nextLabel u' + 1 := by rw [memory]
    have hle := hgrows.fresh
    have hnext := b.memory.le_nextLabel u
    omega

/-- Terms of one name differ in their flags, if at all. -/
theorem eq_of_nameOf? {t u : Term} {n : Name} (ht : nameOf? t = some n) (hu : nameOf? u = some n)
    {h k : Nat} (hflags : flags (.term h t) = flags (.term k u)) : t = u := by
  have hname {t : Term} (ht : nameOf? t = some n) :
      (∃ id, t = .blank { id } ∧ n = .blank id) ∨
        ∃ name d e, t = .var { name, distinguished := d, existential := e } ∧ n = .var name := by
    cases t with
    | iri i => cases ht
    | literal l => cases ht
    | blank b =>
      simp only [nameOf?, Option.ite_none_left_eq_some, Option.some.injEq] at ht
      exact .inl ⟨b.id, rfl, ht.2.symm⟩
    | var v =>
      simp only [nameOf?, Option.ite_none_left_eq_some, Option.some.injEq] at ht
      exact .inr ⟨v.name, v.distinguished, v.existential, rfl, ht.2.symm⟩
  rcases hname ht with ⟨id, rfl, rfl⟩ | ⟨name, d, e, rfl, rfl⟩
  · rcases hname hu with ⟨id', rfl, heq⟩ | ⟨_, _, _, _, heq⟩
    · cases heq
      rfl
    · cases heq
  · rcases hname hu with ⟨_, _, heq⟩ | ⟨name', d', e', rfl, heq⟩
    · cases heq
    · cases heq
      cases hflags
      rfl

/-- A term without a name is equal to one after it, if and only if that has the label for its
name. -/
theorem eq_iff_of_anonymous (ha : a.memory.Fair) (hb : b.memory.Fair)
    (hgrows : (sparql.memoryAt a).Grows b.memory) (hv : termAt? a = some v)
    (hw : termAt? b = some w) (hanonymous : isAnonymous (spelled a) = true) :
    v.eq w = true ↔ name? (spelled b) = label? v ∧ flags v = flags w := by
  obtain ⟨u, hu, rfl⟩ := eq_labelled_of_anonymous ha hv hanonymous
  have hnode := isNode_labelled hu (a.memory.nextLabel u)
  have hlabel := nameOf?_labelled hu (a.memory.nextLabel u)
  have hlabel? : label? (.term a.memory.handles (labelled u (a.memory.nextLabel u))) = _ := hlabel
  rw [hlabel?]
  -- The second term is no node, or it has a name of its own, or a label too.
  cases mentioned_at hb hw with
  | plain word kind _ _ =>
    rw [eq_iff_of_isNode (.inl hnode), name?_of_none word]
    constructor
    · rintro rfl
      rw [hnode] at kind
      cases kind
    · rintro ⟨⟨⟩, -⟩
  | named hname hn _ =>
    rw [eq_iff_of_isNode (.inl hnode), hname]
    constructor
    · rintro rfl
      exact ⟨hn.symm.trans hlabel, rfl⟩
    · rintro ⟨heq, hflags⟩
      exact eq_of_nameOf? hlabel (hn.trans heq) hflags
  | anonymous word unnamed _ =>
    have hname := (name?_of_mentioned word).trans unnamed
    have hanonymous' : isAnonymous (spelled b) = true := by
      rw [isAnonymous, word, Option.any_some, unnamed, Option.isNone_none]
    rw [not_eq_of_anonymous ha hb hgrows hv hw hanonymous', hname]
    constructor
    · rintro ⟨⟩
    · rintro ⟨⟨⟩, -⟩

/-! ## Sessions -/

/-- **A term without a name** is equal to no term before it. It is equal to a term after it if and
only if that has been named by the label, and if a variable is the same kind of variable. The terms
in the answers are those of the tokens that are asked for. -/
theorem anonymous_fresh (text : List Char) (fault : Option Fault) (ab : Abbreviations) (limit : Nat)
    (calls : List Call) :
    let s : Session Memory := .fresh text fault { abbreviations := ab } limit
    List.Forall₂
        (fun answer asks => (∀ e, answer ≠ .failed e) →
          Value.termsAll answer.items = asks.filterMap termAt?)
        (Call.answers sparql s calls) (Call.trace sparql s calls) ∧
      (Call.trace sparql s calls).flatten.Pairwise fun a b => ∀ v ∈ termAt? a, ∀ w ∈ termAt? b,
        (isAnonymous (spelled b) = true → v.eq w = false) ∧
          (isAnonymous (spelled a) = true →
            (v.eq w = true ↔ name? (spelled b) = label? v ∧ flags v = flags w)) := by
  intro s
  have hfair : s.memory.Fair := fair_start ab
  have hlinked := Flat.linked_trace .sparql s calls
  refine ⟨terms_of_trace hfair calls, pairwise_of_linked hlinked hfair ?_⟩
  intro a b ha hb hgrows v hv w hw
  exact ⟨not_eq_of_anonymous ha hb hgrows hv hw, eq_iff_of_anonymous ha hb hgrows hv hw⟩

/-- The label is `b1`, as `b0` is named before. Of what is named after it, `_:b1` is equal and
`_:b0` is not. -/
theorem anonymous_fresh_between :
    let s : Session Memory := .fresh "_:b0 _: _:b1 _:b0".toList none {} 500
    let asks := (Call.trace sparql s [.readAll]).flatten
    asks.map (fun a => (spelled a, (termAt? a).isSome)) =
        [("_:b0".toList, true), ("_:".toList, true), ("_:b1".toList, true), ("_:b0".toList, true),
          ([], false)] ∧
      ∃ first new second third ended,
        asks = [first, new, second, third, ended] ∧
        ∀ v ∈ termAt? new,
          (∀ w ∈ termAt? first, w.eq v = false) ∧ (∀ w ∈ termAt? second, v.eq w = true) ∧
            ∀ w ∈ termAt? third, v.eq w = false := by
  intro s asks
  refine ⟨by decide +kernel, ?_⟩
  have hread : asks.map (fun a => (spelled a, (termAt? a).map fun v => (label? v, flags v))) =
      [("_:b0".toList, some (some (.blank "b0"), (false, false))),
        ("_:".toList, some (some (.blank "b1"), (false, false))),
        ("_:b1".toList, some (some (.blank "b1"), (false, false))),
        ("_:b0".toList, some (some (.blank "b0"), (false, false))), ([], none)] := by
    decide +kernel
  obtain ⟨-, hpairs⟩ := anonymous_fresh "_:b0 _: _:b1 _:b0".toList none {} 500 [.readAll]
  -- The five tokens in turn, and the terms that they are.
  simp only [List.map_eq_cons_iff, List.map_eq_nil_iff, Prod.mk.injEq, Option.map_eq_some_iff] at hread
  obtain ⟨first, -, hasks, -, new, -, rfl, ⟨hnew, v, hv, hlabel, hflags⟩, second, -, rfl,
    ⟨hsecond, w, hw, -, hflags'⟩, third, -, rfl, ⟨hthird, -⟩, ended, -, rfl, -, rfl⟩ := hread
  refine ⟨first, new, second, third, ended, hasks, ?_⟩
  replace hpairs : asks.Pairwise _ := hpairs
  rw [hasks] at hpairs
  simp only [List.pairwise_cons, List.forall_mem_cons] at hpairs
  obtain ⟨⟨hfirst, -⟩, ⟨hsecond', hthird', -⟩, -⟩ := hpairs
  have hanonymous : isAnonymous (spelled new) = true := by
    rw [hnew]
    decide
  intro v' hv'
  obtain rfl : v = v' := Option.some.inj (hv.symm.trans hv')
  refine ⟨fun w hw => (hfirst w hw v hv).1 hanonymous, ?_, ?_⟩
  · intro w' hw'
    obtain rfl : w = w' := Option.some.inj (hw.symm.trans hw')
    apply ((hsecond' v hv w hw).2 hanonymous).mpr
    rw [hsecond, hlabel, hflags, hflags']
    decide
  · intro w hw
    apply Bool.eq_false_iff.mpr
    intro heq
    have hname := (((hthird' v hv w hw).2 hanonymous).mp heq).1
    rw [hthird, hlabel] at hname
    revert hname
    decide

/-- The answer is two different terms that are equal. -/
def givesEqual : List Answer → Bool
  | [.values [v, w]] => !v.sameTerm w && v.eq w
  | _ => false

/-- An answer of two values that are equal, but different terms. -/
theorem exists_of_givesEqual {answers : List Answer} (h : givesEqual answers = true) :
    ∃ v w, answers = [.values [v, w]] ∧ v.sameTerm w = false ∧ v.eq w = true := by
  unfold givesEqual at h
  split at h
  · next v w =>
    rw [Bool.and_eq_true, Bool.not_eq_true'] at h
    exact ⟨v, w, rfl, h⟩
  · cases h

/-- **A label can be used as a name** afterwards. Then two different terms are equal. -/
theorem label_reused :
    (∃ v w, Call.answers sparql (.fresh "_: _:b0".toList none {} 500) [.readAll] =
        [.values [v, w]] ∧ v.sameTerm w = false ∧ v.eq w = true) ∧
      ∃ v w, Call.answers sparql (.fresh "? ?_g0".toList none {} 500) [.readAll] =
        [.values [v, w]] ∧ v.sameTerm w = false ∧ v.eq w = true :=
  ⟨exists_of_givesEqual (by decide +kernel), exists_of_givesEqual (by decide +kernel)⟩

end SExpr.Dialect.Sparql
