import SExpr.Proofs.Sparql.Written

/-!
# Forms that change abbreviations

Within a `prefix` or `base` form IRIs are written with the abbreviations of the form, but a session
reads them with the last definition it has come across, wherever that stands. So a document is read
back only as far as the two agree.

* **`reread`**: what a session remembers after a written value, if it has read every leaf as an
  equal one.
* **`follows`**: a written value is read back if it is so reread, and misread if not.
* **`parse_formatAll_forms`**: a document that was read is read back if and only if its leaves are.
* **`parse_formatAll_shadowed`**: a definition within a form hides that of the form.
-/

namespace SExpr.Dialect.Sparql

open ReadM Text

mutual

/-- What is remembered after a value that was written under `ab` is read again, if every leaf of it
is read as an equal one. -/
def reread (ab : Abbreviations) : Value → Memory → Option Memory
  | .list items, m =>
    (rereadAll (ab.scope items) 0 items (m.seen (.opener .round))).map (·.seen (.closer .round))
  | v, m => (alone (v.compact .sparql ab) m).bind fun r => if r.1.eq v then some r.2 else none

/-- The same for the items of a list from the `i`-th on. -/
def rereadAll (scope : Nat → Abbreviations) (i : Nat) : List Value → Memory → Option Memory
  | [], m => some m
  | v :: vs, m => (reread (scope i) v m).bind fun m => rereadAll scope (i + 1) vs m

end

/-! ## Abbreviations of forms -/

section Scope

variable {less : Prop} {ab : Abbreviations}

/-- A definition is the only entry that a table gains. -/
theorem mem_bind {name iri : String} {table : Namespaces} {e : String × String}
    (h : e ∈ table.bind name iri) : e = (name, iri) ∨ e ∈ table := by
  induction table with
  | nil => exact .inl (by simpa [Namespaces.bind] using h)
  | cons d table ih =>
    obtain ⟨n, i⟩ := d
    rw [Namespaces.bind] at h
    split at h
    · rcases List.mem_cons.mp h with h | h
      · exact .inl h
      · exact .inr (List.mem_cons_of_mem _ h)
    split at h
    · rcases List.mem_cons.mp h with h | h
      · exact .inl h
      · exact .inr h
    · rcases List.mem_cons.mp h with h | h
      · exact .inr (by simp [h])
      · exact (ih h).imp_right (List.mem_cons_of_mem _)

/-- A symbol that is built of leaves is a leaf. -/
theorem IsPlain.of_built {room : Nat} {name : String} (h : (Value.symbol name).Built IsPlain room) :
    IsPlain (.symbol name) := by
  cases h with
  | leaf h => exact h

/-- The items of a list that is built of leaves are built of leaves. -/
theorem forall_built {room : Nat} {items : List Value} (h : (Value.list items).Built IsPlain room) :
    ∃ room', ∀ v ∈ items, v.Built IsPlain room' := by
  cases h with
  | leaf h => exact h.1.elim
  | list h => exact ⟨_, h⟩

/-- The name that a symbol defines. -/
theorem isShort_of_symbol {name : String} (h : IsPlain (.symbol name)) :
    IsShort name ∧ (name.toList.getLast? = some ':' → IsShort (String.ofList name.toList.dropLast) ∧
      String.ofList name.toList.dropLast ≠ "<") := by
  obtain ⟨hbars, hless⟩ := h.symbol
  have hbare := Symbol.needsBars_eq_false_iff.mp hbars
  have hall := List.all_eq_true.mp (hbare.all_isAtomChar lexicon.brackets)
  have hfirst : ∀ c ∈ name.toList.head?, c ∉ ['"', '\'', ';', '#'] := by
    intro c hc
    have := hbare.first c hc
    simp_all
  refine ⟨⟨List.all_eq_true.mpr hall, hfirst, hless⟩, fun hlast => ?_⟩
  -- A name with a colon is no operator.
  have hhead : name.toList.head? ≠ some '<' := by
    intro hhead
    rcases hless hhead with rfl | rfl <;> exact absurd hlast (by decide)
  have hdrop : ∀ c ∈ (String.ofList name.toList.dropLast).toList.head?, c ∈ name.toList.head? := by
    rw [String.toList_ofList]
    intro c hc
    cases hcs : name.toList with
    | nil => simp [hcs] at hc
    | cons d cs =>
      cases cs with
      | nil => simp [hcs] at hc
      | cons e cs => simpa [hcs] using hc
  refine ⟨⟨?_, fun c hc => hfirst c (hdrop c hc), fun hc => absurd (hdrop _ hc) hhead⟩, ?_⟩
  · rw [String.toList_ofList, List.all_eq_true]
    exact fun c hc => hall c ((List.dropLast_sublist _).mem hc)
  · intro heq
    exact hhead (hdrop '<' (by rw [heq]; rfl))

/-- A definition leaves the abbreviations in force: what it defines has been a symbol. -/
theorem InForce.define (hab : InForce less ab) {room : Nat} {v : Value}
    (hv : v.Built IsPlain room)
    (hless : ∀ n i, [.symbol "<", .term n (.iri i)] ∈ v.lists → less) :
    InForce less (ab.define v) := by
  unfold Abbreviations.define
  split
  · next name n i =>
    obtain ⟨room', hitems⟩ := forall_built hv
    obtain ⟨hname, hcolon⟩ := isShort_of_symbol (.of_built (hitems (.symbol name) (by simp)))
    intro e he
    rcases mem_bind he with rfl | he
    · dsimp only
      split
      · next hlast =>
        obtain ⟨hshort, hne⟩ := hcolon hlast
        exact ⟨hshort, fun heq => absurd heq hne⟩
      · refine ⟨hname, ?_⟩
        rintro rfl
        exact hless n i (by simp [Value.lists])
    · exact hab e he
  · exact hab

/-- So do definitions in turn. -/
theorem InForce.foldl_define {definitions : List Value} (hab : InForce less ab) {room : Nat}
    (hbuilt : ∀ v ∈ definitions, v.Built IsPlain room)
    (hless : ∀ n i, [.symbol "<", .term n (.iri i)] ∈ Value.listsAll definitions → less) :
    InForce less (definitions.foldl Abbreviations.define ab) := by
  induction definitions generalizing ab with
  | nil => exact hab
  | cons v definitions ih =>
    simp only [Value.listsAll, List.mem_append] at hless
    rw [List.foldl_cons]
    refine ih (hab.define (hbuilt v (by simp)) fun n i h => hless n i (.inl h)) ?_ ?_
    · exact fun w hw => hbuilt w (by simp [hw])
    · exact fun n i h => hless n i (.inr h)

/-- **The names in force within a list** have been symbols in it or around it. -/
theorem InForce.scope {items : List Value} (hab : InForce less ab) {room : Nat}
    (hbuilt : ∀ v ∈ items, v.Built IsPlain room)
    (hless : ∀ n i, [.symbol "<", .term n (.iri i)] ∈ Value.listsAll items → less) (i : Nat) :
    InForce less (ab.scope items i) := by
  unfold Abbreviations.scope
  cases hbody : ab.forBody items with
  | none => exact hab
  | some body =>
    dsimp only
    split
    · simp [InForce]
    · -- A form with a base keeps the names, and one with prefixes adds those of its definitions.
      unfold Abbreviations.forBody at hbody
      split at hbody
      · split at hbody
        · cases hbody
          exact hab
        · cases hbody
      · next head definitions rest _ =>
        split at hbody
        · cases hbody
          obtain ⟨room', hdefinitions⟩ := forall_built (hbuilt (.list definitions) (by simp))
          refine hab.foldl_define hdefinitions fun n i h => hless n i ?_
          simp [Value.listsAll, Value.lists, h]
        · cases hbody
      · cases hbody

end Scope

/-! ## Values -/

/-- Either the value is read back, as all its leaves are; or it is misread, unless `less` holds. -/
def Follows (less : Prop) (room : Nat) (v : Value) : Prop :=
  ∀ ab m, InForce less ab → m.Sound →
    (∃ w m', reread ab v m = some m' ∧ m'.Sound ∧
      Reads sparql brackets room m (v.box .sparql ab) w m' ∧ w.eq v = true) ∨
    reread ab v m = none ∧ (less ∨ sparql.Misses room m (v.box .sparql ab) v)

section Follows

variable {less : Prop} {room : Nat}

/-- A leaf is reread if it is read alone as an equal value. -/
theorem reread_leaf {v : Value} (hv : IsPlain v) (ab : Abbreviations) (m : Memory) :
    reread ab v m =
      (alone (v.compact .sparql ab) m).bind fun r => if r.1.eq v then some r.2 else none := by
  cases v with
  | list items => exact hv.1.elim
  | atom a =>
    rw [reread]
    simp
  | vector items => exact hv.1.elim
  | term n t =>
    rw [reread]
    simp

/-- A leaf is written as its own text. -/
theorem box_leaf {v : Value} (hv : IsPlain v) (ab : Abbreviations) :
    v.box .sparql ab = .leaf (v.compact .sparql ab) := by
  cases v with
  | list items => exact hv.1.elim
  | atom a => rw [Value.box]
  | vector items => exact hv.1.elim
  | term n t => rw [Value.box]

/-- A leaf follows: it is read back if it is reread, and misread if not. -/
theorem follows_leaf {v : Value} (hv : IsPlain v) : Follows less room v := by
  intro ab m hab hm
  rw [reread_leaf hv, box_leaf hv]
  -- What the leaf is read as among others is what it is read as alone, and `reread` compares that.
  rcases settles_leaf hv hab hm with hsettles | ⟨hless, halone⟩
  · cases hsettles with
    | @read w m' hm' h halone =>
      rw [halone, Option.bind_some]
      cases heq : w.eq v with
      | true => exact .inl ⟨w, m', by simp, hm', .leaf h, heq⟩
      | false => exact .inr ⟨by simp, .inr (h.misses heq).misses⟩
    | missed h halone => exact .inr ⟨by rw [halone, Option.bind_none], .inr h.misses⟩
  · exact .inr ⟨by rw [halone, Option.bind_none], .inl hless⟩

/-- The items of a list follow one after the other, up to the first that is misread. -/
theorem follows_items {scope : Nat → Abbreviations} (hscope : ∀ i, InForce less (scope i))
    {items : List Value} (hitems : ∀ v ∈ items, Follows less room v) (i : Nat) (m : Memory)
    (hm : m.Sound) :
    (∃ ws m', rereadAll scope i items m = some m' ∧ m'.Sound ∧
      ReadsAll sparql brackets room m (Value.boxAll .sparql scope i items) ws m' ∧
      Value.eqAll ws items = true) ∨
    rereadAll scope i items m = none ∧
      (less ∨ MissesAll sparql brackets room m (Value.boxAll .sparql scope i items) items) := by
  induction items generalizing i m with
  | nil =>
    rw [Value.boxAll]
    exact .inl ⟨[], m, by rw [rereadAll], hm, .nil, by rw [Value.eqAll]⟩
  | cons v items ih =>
    rw [Value.boxAll, rereadAll]
    -- The first item that is not reread is the one that is misread.
    rcases hitems v (by simp) (scope i) m (hscope i) hm with
      ⟨w, m₁, hread, hm₁, hreads, heq⟩ | ⟨hread, hmisses⟩
    · rw [hread, Option.bind_some]
      rcases ih (fun u hu => hitems u (by simp [hu])) (i + 1) m₁ hm₁ with
        ⟨ws, m', hread', hm', hreads', heq'⟩ | ⟨hread', hmisses⟩
      · refine .inl ⟨w :: ws, m', hread', hm', .cons hreads hreads', ?_⟩
        rw [Value.eqAll, heq, heq', Bool.and_self]
      · exact .inr ⟨hread', hmisses.imp_right (.there hreads)⟩
    · exact .inr ⟨by rw [hread, Option.bind_none], hmisses.imp_right .here⟩

/-- **A value follows** where its leaves do. -/
theorem follows {v : Value} (hv : v.Built IsPlain room)
    (hless : ∀ n i, [.symbol "<", .term n (.iri i)] ∈ v.lists → less) : Follows less room v := by
  induction hv with
  | leaf h => exact follows_leaf h
  | @list room items hbuilt ih =>
    intro ab m hab hm
    have hitems : ∀ v ∈ items, Follows less room v := fun v hv =>
      ih v hv fun n i h => hless n i (Value.mem_lists_of_mem hv h)
    -- The items are written under the abbreviations of the list, which `reread` passes on too.
    have hscope := hab.scope hbuilt fun n i h => hless n i (by simp [Value.lists, h])
    rw [reread, Value.box]
    rcases follows_items hscope hitems 0 _ (hm.seen (.opener .round)) with
      ⟨ws, m', hread, hm', hreads, heq⟩ | ⟨hread, hmisses⟩
    · refine .inl ⟨.list ws, m'.seen (.closer .round), by rw [hread, Option.map_some], hm'.seen _,
        .group hreads, ?_⟩
      rw [Value.eq, heq]
    · exact .inr ⟨by rw [hread, Option.map_none], hmisses.imp_right MissesAll.group⟩

/-- Whether it is read back or not, a written value can be laid out. -/
theorem proper_box {v : Value} (hv : v.Built IsPlain room) {ab : Abbreviations}
    (hab : InForce True ab) : (v.box .sparql ab).Proper := by
  induction hv generalizing ab with
  | leaf h =>
    rw [box_leaf h, Box.Proper]
    exact (opens_leaf h hab).leads
  | @list room items hbuilt ih =>
    have hscope := hab.scope hbuilt fun _ _ _ => trivial
    rw [Value.box, Box.proper_group]
    exact Value.properAll_boxAll (fun v hv i => ih v hv (hscope i)) 0

end Follows

/-! ## Documents -/

/-- **What was read is read back if every leaf is**, where each leaf has to be expanded by the
abbreviations that the session has come across as it was abbreviated by those of the forms around
it. Otherwise it is not read back. Documents that define the name `<` are left out of the converse:
there `<` and a colon begin an IRI that takes in part of the text that follows, and by chance that
can be the right one. -/
theorem parse_formatAll_forms (layout : Layout) {text : String} {vs : List Value}
    (hok : parse sparql {} text = .ok vs)
    (hbars : ∀ name, .symbol name ∈ Value.atomsAll vs →
      Symbol.needsBars .sparql name.toList = false) :
    ((rereadAll (fun _ => {}) 0 vs {}).isSome = true →
      ∃ ws, parse sparql {} (String.ofList (Value.formatAll layout .sparql {} vs)) = .ok ws ∧
        Value.eqAll ws vs = true) ∧
    ((∀ n i, [.symbol "<", .term n (.iri i)] ∉ Value.listsAll vs) →
      (∃ ws, parse sparql {} (String.ofList (Value.formatAll layout .sparql {} vs)) = .ok ws ∧
        Value.eqAll ws vs = true) →
      (rereadAll (fun _ => {}) 0 vs {}).isSome = true) := by
  let less : Prop := ∃ n i, [.symbol "<", .term n (.iri i)] ∈ Value.listsAll vs
  have hbuilt : ∀ v ∈ vs, v.Built IsPlain 500 := by
    intro v hv
    refine (returns.parse .start hok v hv).and (fun _ => Value.forall_atoms_of_mem) ?_
    rintro a ha name rfl
    exact hbars name (Value.mem_atomsAll.mpr ⟨v, hv, ha⟩)
  have hfollows : ∀ v ∈ vs, Follows less 500 v := fun v hv =>
    follows (hbuilt v hv) fun n i h => ⟨n, i, Value.mem_listsAll.mpr ⟨v, hv, h⟩⟩
  have hnone : InForce less {} := by simp [InForce]
  -- The document as a whole is reread and read back, or it has a box that is misread.
  have hitems := follows_items (fun _ => hnone) hfollows 0 {} .start
  rw [Value.boxAll_const] at hitems
  constructor
  · intro hread
    rcases hitems with ⟨ws, m', -, -, hreads, heq⟩ | ⟨hmissed, -⟩
    · exact ⟨ws, parse_formatAll hreads, heq⟩
    · rw [hmissed] at hread
      cases hread
  · rintro hless ⟨ws, hws, heq⟩
    rcases hitems with ⟨_, m', hsome, -⟩ | ⟨-, ⟨n, i, h⟩ | hmisses⟩
    · rw [hsome]
      rfl
    · exact absurd h (hless n i)
    · have hproper : ∀ v ∈ vs, (v.box .sparql {}).Proper := fun v hv =>
        proper_box (hbuilt v hv) (by simp [InForce])
      rw [hmisses.parse hproper hws] at heq
      cases heq

/-- No symbol in the values needs bars. -/
def isBarless (vs : List Value) : Bool :=
  (Value.atomsAll vs).all fun a =>
    match a with
    | .symbol name => !Symbol.needsBars .sparql name.toList
    | _ => true

/-- The test for symbols that need bars says what it should. -/
theorem forall_of_isBarless {vs : List Value} (h : isBarless vs = true) :
    ∀ name, .symbol name ∈ Value.atomsAll vs → Symbol.needsBars .sparql name.toList = false := by
  intro name hname
  simpa using List.all_eq_true.mp h _ hname

/-- What has been tested of a result that is given is true of it. -/
theorem exists_of_toOption_any {e : Except Failure (List Value)} {p : List Value → Bool}
    (h : e.toOption.any p = true) : ∃ vs, e = .ok vs ∧ p vs = true := by
  cases e with
  | error f => cases h
  | ok vs => exact ⟨vs, rfl, h⟩

theorem parse_formatAll_forms_prefixed :
    ∃ vs, parse sparql {} "(prefix ((ex: <http://a/>)) (x <http://a/foo>))" = .ok vs ∧
      ∃ ws, parse sparql {} (String.ofList (Value.formatAll {} .sparql {} vs)) = .ok ws ∧
        Value.eqAll ws vs = true := by
  obtain ⟨vs, hok, hvs⟩ := exists_of_toOption_any
    (e := parse sparql {} "(prefix ((ex: <http://a/>)) (x <http://a/foo>))")
    (p := fun vs => isBarless vs && (rereadAll (fun _ => {}) 0 vs {}).isSome) (by decide +kernel)
  rw [Bool.and_eq_true] at hvs
  exact ⟨vs, hok, (parse_formatAll_forms {} hok (forall_of_isBarless hvs.1)).1 hvs.2⟩

/-- **A definition hides that of the form around it** from the reader, but not from the writer. -/
theorem parse_formatAll_shadowed :
    ∃ vs ws, parse sparql {}
        "(prefix ((ex: <http://a/>)) (prefix ((ex: <http://b/>)) x) <http://a/foo>)" = .ok vs ∧
      (∀ name, .symbol name ∈ Value.atomsAll vs →
        Symbol.needsBars .sparql name.toList = false) ∧
      parse sparql {} (String.ofList (Value.formatAll {} .sparql {} vs)) = .ok ws ∧
      Value.eqAll ws vs = false := by
  obtain ⟨vs, hok, hvs⟩ := exists_of_toOption_any
    (e := parse sparql {}
      "(prefix ((ex: <http://a/>)) (prefix ((ex: <http://b/>)) x) <http://a/foo>)")
    (p := fun vs => isBarless vs &&
      (parse sparql {} (String.ofList (Value.formatAll {} .sparql {} vs))).toOption.any fun ws =>
        !Value.eqAll ws vs) (by decide +kernel)
  rw [Bool.and_eq_true] at hvs
  obtain ⟨ws, hws, hne⟩ := exists_of_toOption_any hvs.2
  exact ⟨vs, ws, hok, forall_of_isBarless hvs.1, hws, by simpa using hne⟩

end SExpr.Dialect.Sparql
