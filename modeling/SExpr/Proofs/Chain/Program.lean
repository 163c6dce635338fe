import SExpr.Proofs.Chain

/-!
# Programs on chains

A program that works on chains gets the answers that it would get on plain lists of values. Chains
may share their pairs, and measuring one leaves its length behind in it; neither shows in what any
chain stands for.

* **`Lists`**: what can be done with lists, by chains (`chains`) and by plain lists (`plain`).
* **`step?`**, **`run`**: the actions of a program, and what they answer.
* **`lists_step?`**: what an action does to the lists there are.
* **`step?_chains`**: an action on chains is the same action on the lists they stand for.
* **`run_chains`**: so is a program, and no later action changes what a chain stands for.
-/

namespace SExpr

/-- How to put two lists together. -/
inductive Lists.Combination where
  | append
  | union
  | inter
  | diff

/-- What can be done with lists of values. An `L` is a list, and a `W` a walk along one. -/
structure Lists (L W : Type) where
  empty : L
  ofList : List Value → L
  ofValue? : Value → Option L
  push : L → Value → L
  tail? : L → Option L
  combine : Lists.Combination → L → L → L
  head? : L → Option Value
  get? : L → Nat → Option Value
  isEmpty : L → Bool
  toList : L → List Value
  eq : L → L → Bool
  /-- The length, and the list once it has been measured. -/
  length : L → Nat × L
  walk : L → W
  next? : W → Option (Value × W)

namespace Lists

/-- Chains of pairs. -/
def chains : Lists Chain Chain.Walk where
  empty := Chain.empty
  ofList := Chain.ofList
  ofValue? := Chain.ofValue?
  push := Chain.push
  tail? := Chain.tail?
  combine
    | .append => Chain.append
    | .union => Chain.union
    | .inter => Chain.inter
    | .diff => Chain.diff
  head? := Chain.head?
  get? := Chain.get?
  isEmpty := Chain.isEmpty
  toList := Chain.toList
  eq := Chain.eq
  length c := (c.length, c.measured)
  walk := Chain.walk
  next? := Chain.Walk.next?

/-- Plain lists. What is left of a walk along one is a list again. -/
def plain : Lists (List Value) (List Value) where
  empty := []
  ofList vs := vs
  ofValue? := Value.list?
  push vs v := v :: vs
  tail? := List.tail?
  combine
    | .append, vs, ws => vs ++ ws
    | .union, vs, ws => (vs ++ ws).eraseDups
    | .inter, vs, ws => (vs.filter ws.contains).eraseDups
    | .diff, vs, ws => vs.filter (!ws.contains ·)
  head? := List.head?
  get? vs i := vs[i]?
  isEmpty := List.isEmpty
  toList vs := vs
  eq vs ws := vs == ws
  length vs := (vs.length, vs)
  walk vs := vs
  next? vs := vs.head?.map fun v => (v, vs.tail)

/-- A list to be made. Lists are named by the order in which they were made. -/
inductive Making where
  | empty
  | ofList (vs : List Value)
  | ofValue (v : Value)
  | push (v : Value) (a : Nat)
  | tail (a : Nat)
  | combine (how : Combination) (a b : Nat)

/-- A question about lists. -/
inductive Question where
  | head (a : Nat)
  | get (a i : Nat)
  | isEmpty (a : Nat)
  | toList (a : Nat)
  | eq (a b : Nat)

/-- A step of a program. Walks are named by the order in which they were begun. -/
inductive Action where
  | make (m : Making)
  | ask (q : Question)
  | length (a : Nat)
  | walk (a : Nat)
  | next (w : Nat)

inductive Answer where
  | made
  | value (v : Option Value)
  | values (vs : List Value)
  | flag (b : Bool)
  | number (n : Nat)

/-- The lists made and the walks begun so far. -/
structure Store (L W : Type) where
  lists : List L := []
  walks : List W := []

variable {L W : Type}

/-- The list that is made, unless there is none to make it from. -/
def make (I : Lists L W) (ls : List L) : Making → Option L
  | .empty => some I.empty
  | .ofList vs => some (I.ofList vs)
  | .ofValue v => I.ofValue? v
  | .push v a => ls[a]?.map (I.push · v)
  | .tail a => ls[a]?.bind I.tail?
  | .combine how a b => ls[a]?.bind fun l => ls[b]?.map (I.combine how l)

/-- The answer, if there are lists of these names. -/
def ask (I : Lists L W) (ls : List L) : Question → Option Answer
  | .head a => ls[a]?.map (.value <| I.head? ·)
  | .get a i => ls[a]?.map (.value <| I.get? · i)
  | .isEmpty a => ls[a]?.map (.flag <| I.isEmpty ·)
  | .toList a => ls[a]?.map (.values <| I.toList ·)
  | .eq a b => ls[a]?.bind fun l => ls[b]?.map (.flag <| I.eq l ·)

/-- The answer and what there is afterwards, if there are lists and walks of these names. -/
def step? (I : Lists L W) (s : Store L W) : Action → Option (Answer × Store L W)
  | .make m => (I.make s.lists m).map fun l => (.made, { s with lists := s.lists ++ [l] })
  | .ask q => (I.ask s.lists q).map fun answer => (answer, s)
  | .length a => s.lists[a]?.map fun l =>
    (.number (I.length l).1, { s with lists := s.lists.set a (I.length l).2 })
  | .walk a => s.lists[a]?.map fun l => (.made, { s with walks := s.walks ++ [I.walk l] })
  | .next w => s.walks[w]?.map fun u =>
    -- A walk that is over stays where it is.
    (.value ((I.next? u).map Prod.fst),
      { s with walks := s.walks.set w (((I.next? u).map Prod.snd).getD u) })

/-- The answers of a program, and what there is in the end. An action that has no answer changes
nothing. -/
def run (I : Lists L W) (s : Store L W) : List Action → List (Option Answer) × Store L W
  | [] => ([], s)
  | action :: program =>
    match I.step? s action with
    | some (answer, s) => ((I.run s program).map (some answer :: ·) id)
    | none => ((I.run s program).map (none :: ·) id)

/-- **What an action does to the lists**: nothing, or it makes one more, or it measures one. -/
theorem lists_step? {I : Lists L W} {s s' : Store L W} {action : Action} {answer : Answer}
    (h : I.step? s action = some (answer, s')) :
    s'.lists = s.lists ∨
      (∃ m l, I.make s.lists m = some l ∧ s'.lists = s.lists ++ [l]) ∨
      ∃ a l, s.lists[a]? = some l ∧ s'.lists = s.lists.set a (I.length l).2 := by
  -- Only two of the actions touch the lists; the others answer a question about them.
  cases action with
  | make m =>
    obtain ⟨l, hl, heq⟩ := Option.map_eq_some_iff.mp h
    cases heq
    exact .inr (.inl ⟨m, l, hl, rfl⟩)
  | ask q =>
    obtain ⟨_, _, heq⟩ := Option.map_eq_some_iff.mp h
    cases heq
    exact .inl rfl
  | length a =>
    obtain ⟨l, hl, heq⟩ := Option.map_eq_some_iff.mp h
    cases heq
    exact .inr (.inr ⟨a, l, hl, rfl⟩)
  | walk a =>
    obtain ⟨_, _, heq⟩ := Option.map_eq_some_iff.mp h
    cases heq
    exact .inl rfl
  | next w =>
    obtain ⟨_, _, heq⟩ := Option.map_eq_some_iff.mp h
    cases heq
    exact .inl rfl

/-- A program in two parts leaves what the second part leaves after the first. -/
theorem run_append (I : Lists L W) (s : Store L W) (program more : List Action) :
    (I.run s (program ++ more)).2 = (I.run (I.run s program).2 more).2 := by
  induction program generalizing s with
  | nil => rfl
  | cons action program ih =>
    rw [List.cons_append, run, run]
    cases I.step? s action <;> exact ih _

/-! ### Plain lists -/

/-- On plain lists, an action changes none of the lists there are. -/
theorem prefix_step? {s s' : Store (List Value) (List Value)} {action : Action} {answer : Answer}
    (h : plain.step? s action = some (answer, s')) : s.lists <+: s'.lists := by
  obtain h | ⟨m, vs, -, h⟩ | ⟨a, vs, hvs, h⟩ := lists_step? h
  · exact h ▸ List.prefix_rfl
  · exact h ▸ List.prefix_append _ _
  · -- A plain list is the same after it has been measured.
    obtain ⟨ha, rfl⟩ := List.getElem?_eq_some_iff.mp hvs
    exact h ▸ (List.set_getElem_self ha).symm ▸ List.prefix_rfl

/-- So the lists there are stay the first ones throughout a program. -/
theorem prefix_run (s : Store (List Value) (List Value)) (program : List Action) :
    s.lists <+: (plain.run s program).2.lists := by
  induction program generalizing s with
  | nil => exact List.prefix_rfl
  | cons action program ih =>
    rw [run]
    cases h : plain.step? s action with
    | none => exact ih s
    | some r => exact (prefix_step? h).trans (ih r.2)

/-! ### Chains against plain lists -/

/-- What the lists of a store stand for, and what is left of its walks. -/
def Store.read (s : Store Chain Chain.Walk) : Store (List Value) (List Value) where
  lists := s.lists.map Chain.toList
  walks := s.walks.map Chain.Walk.left

def Store.Sound (s : Store Chain Chain.Walk) : Prop := ∀ c ∈ s.lists, c.Sound

theorem Store.Sound.getElem? {s : Store Chain Chain.Walk} (hs : s.Sound) {a : Nat} {c : Chain}
    (h : s.lists[a]? = some c) : c.Sound :=
  hs c (List.mem_of_getElem? h)

/-- Two chains are combined as the lists are that they stand for. -/
theorem toList_combine (how : Combination) (c d : Chain) :
    (chains.combine how c d).toList = plain.combine how c.toList d.toList := by
  have hcontains : d.contains = d.toList.contains := funext d.contains_eq
  cases how with
  | append => exact Chain.toList_ofList _
  | union => exact (Chain.toList_ofList _).trans (Chain.firsts_eq_eraseDups _)
  | inter =>
    refine (Chain.toList_ofList _).trans ((Chain.firsts_eq_eraseDups _).trans ?_)
    rw [hcontains]
    rfl
  | diff =>
    refine (Chain.toList_ofList _).trans ?_
    rw [hcontains]
    rfl

theorem sound_combine (how : Combination) (c d : Chain) : (chains.combine how c d).Sound := by
  cases how <;> exact Chain.sound_ofList _

/-- To make a chain is to make the list that it stands for. -/
theorem make_chains (cs : List Chain) (m : Making) :
    plain.make (cs.map Chain.toList) m = (chains.make cs m).map Chain.toList := by
  cases m with
  | empty => rfl
  | ofList vs => exact congrArg some (Chain.toList_ofList vs).symm
  | ofValue v => simp [make, chains, plain, Chain.ofValue?, Function.comp_def]
  | push v a => cases h : cs[a]? <;> simp [make, chains, plain, h]
  | tail a =>
    cases h : cs[a]? with
    | none => simp [make, h]
    | some c => simpa [make, chains, plain, h] using c.map_toList_tail?.symm
  | combine how a b =>
    cases ha : cs[a]? <;> cases hb : cs[b]? <;> simp [make, ha, hb, toList_combine]

/-- Chains that are made of sound ones are sound. -/
theorem sound_make {s : Store Chain Chain.Walk} (hs : s.Sound) {m : Making} {c : Chain}
    (h : chains.make s.lists m = some c) : c.Sound := by
  cases m with
  | empty => exact Option.some.inj h ▸ Chain.sound_empty
  | ofList vs => exact Option.some.inj h ▸ Chain.sound_ofList vs
  | ofValue v =>
    obtain ⟨vs, -, rfl⟩ := Option.map_eq_some_iff.mp h
    exact Chain.sound_ofList vs
  | push v a =>
    obtain ⟨d, hd, rfl⟩ := Option.map_eq_some_iff.mp h
    exact (hs.getElem? hd).push v
  | tail a =>
    obtain ⟨d, hd, h⟩ := Option.bind_eq_some_iff.mp h
    exact (hs.getElem? hd).of_tail? h
  | combine how a b =>
    obtain ⟨d, -, h⟩ := Option.bind_eq_some_iff.mp h
    obtain ⟨e, -, rfl⟩ := Option.map_eq_some_iff.mp h
    exact sound_combine how d e

/-- Questions about chains are answered as those about the lists. -/
theorem ask_chains (cs : List Chain) (q : Question) :
    plain.ask (cs.map Chain.toList) q = chains.ask cs q := by
  cases q with
  | head a => cases h : cs[a]? <;> simp [ask, chains, plain, h, Chain.head?_eq]
  | get a i => cases h : cs[a]? <;> simp [ask, chains, plain, h, Chain.get?_eq]
  | isEmpty a => cases h : cs[a]? <;> simp [ask, chains, plain, h, Chain.isEmpty_eq]
  | toList a => cases h : cs[a]? <;> simp [ask, chains, plain, h]
  | eq a b =>
    cases ha : cs[a]? <;> cases hb : cs[b]? <;> simp [ask, chains, plain, ha, hb, Chain.eq_eq]

/-- **One action on chains** is the same action on the lists that they stand for. -/
theorem step?_chains {s : Store Chain Chain.Walk} (hs : s.Sound) (action : Action) :
    plain.step? s.read action = (chains.step? s action).map (Prod.map id Store.read) := by
  cases action with
  | make m =>
    rw [step?, step?, Store.read, make_chains]
    cases chains.make s.lists m <;> simp [Store.read]
  | ask q =>
    rw [step?, step?, Store.read, ask_chains]
    cases chains.ask s.lists q <;> rfl
  | length a =>
    rw [step?, step?, Store.read, List.getElem?_map]
    cases h : s.lists[a]? with
    | none => rfl
    | some c =>
      -- Only here does it matter that the length is right where it is known.
      have hlength : c.length = c.toList.length := (hs.getElem? h).length_eq
      simp [chains, plain, Store.read, List.map_set, hlength]
  | walk a =>
    rw [step?, step?, Store.read, List.getElem?_map]
    cases s.lists[a]? with
    | none => rfl
    | some c => simp [chains, plain, Store.read, Chain.left_walk]
  | next w =>
    rw [step?, step?, Store.read, List.getElem?_map]
    cases s.walks[w]? with
    | none => rfl
    | some u =>
      have hnext : plain.next? u.left = (chains.next? u).map (Prod.map id Chain.Walk.left) :=
        u.next?_eq.symm
      -- Both walks come to one value, or both are over.
      rw [Option.map_some, Option.map_some, hnext]
      cases h : chains.next? u <;> simp [Store.read, List.map_set, h]

/-- An action leaves all chains sound, those that it makes and those that it measures. -/
theorem sound_step? {s s' : Store Chain Chain.Walk} (hs : s.Sound) {action : Action}
    {answer : Answer} (h : chains.step? s action = some (answer, s')) : s'.Sound := by
  intro c hc
  obtain h | ⟨m, d, hd, h⟩ | ⟨a, d, hd, h⟩ := lists_step? h
  · exact hs c (h ▸ hc)
  · rw [h, List.mem_append, List.mem_singleton] at hc
    obtain hc | rfl := hc
    · exact hs c hc
    · exact sound_make hs hd
  · rw [h] at hc
    obtain hc | rfl := List.mem_or_eq_of_mem_set hc
    · exact hs c hc
    · exact (hs.getElem? hd).measured

/-- From chains that are sound, a program goes as it does from the lists they stand for. -/
theorem run_read {s : Store Chain Chain.Walk} (hs : s.Sound) (program : List Action) :
    plain.run s.read program = (chains.run s program).map id Store.read ∧
      (chains.run s program).2.Sound := by
  induction program generalizing s with
  | nil => exact ⟨rfl, hs⟩
  | cons action program ih =>
    rw [run, run, step?_chains hs]
    cases h : chains.step? s action with
    | none =>
      obtain ⟨hrun, hsound⟩ := ih hs
      exact ⟨congrArg (Prod.map (none :: ·) id) hrun, hsound⟩
    | some r =>
      obtain ⟨hrun, hsound⟩ := ih (sound_step? hs h)
      exact ⟨congrArg (Prod.map (some r.1 :: ·) id) hrun, hsound⟩

/-- **A program on chains** has the answers it has on plain lists, and makes chains that stand for
the lists made there. Each of them is sound, and no later action changes what it stands for. -/
theorem run_chains (program : List Action) :
    let made := chains.run {} program
    let expected := plain.run {} program
    made.1 = expected.1 ∧ made.2.lists.map Chain.toList = expected.2.lists ∧
      (∀ c ∈ made.2.lists, c.Sound) ∧
      ∀ more, made.2.lists.map Chain.toList <+:
        (chains.run {} (program ++ more)).2.lists.map Chain.toList := by
  have hrun (program : List Action) := run_read (s := {}) (by simp [Store.Sound]) program
  -- What becomes of earlier chains is seen on plain lists, which measuring leaves alone.
  have hread (program : List Action) :
      (chains.run {} program).2.lists.map Chain.toList = (plain.run {} program).2.lists :=
    (congrArg (·.2.lists) (hrun program).1).symm
  obtain ⟨hanswers, hsound⟩ := hrun program
  refine ⟨(congrArg Prod.fst hanswers).symm, hread program, hsound, fun more => ?_⟩
  rw [hread, hread, run_append]
  exact prefix_run _ more

end Lists

end SExpr
