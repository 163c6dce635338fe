import SExpr.Proofs.Sparql.Identity

/-!
# Where prefixes are defined

The word `prefix` opens a region in which a symbol that ends in a colon is a name to be defined. A
session tells the region by how deep its lists are nested, and keeps count of them apart from the
reader that opens and closes them.

* **`Mark`**: what a token does to the count and to the region.
* **`OpenedBy`**: the region is that of one `prefix`, in a list that has not been closed since.
* **`Stands.step`**, **`stands_of_asked`**: the count is right, token by token and over a run.
* **`region_follows_lists`**: it is right wherever a token is asked for, and between calls.
-/

namespace SExpr.Dialect.Sparql

open Text

/-! ## The word -/

/-- The word is `prefix`, in letters of either case. -/
def beginsForm (text : List Char) : Bool := sameIgnoringCase text "prefix".toList

theorem atom_of_beginsForm {text : List Char} (h : beginsForm text = true) (m : Memory) :
    atom text m = (.symbol (String.ofList text), m) := by
  cases text with
  | nil => cases h
  | cons c cs =>
    simp only [beginsForm, sameIgnoringCase, beq_iff_eq] at h
    obtain ⟨hc, hcs⟩ := List.cons.inj h
    -- Nothing but a symbol begins with this letter, and none of the words do.
    replace hc : c.toLower = 'p' := hc
    have hne {d : Char} (hd : d.toLower ≠ 'p') : c ≠ d := by
      rintro rfl
      exact hd hc
    have hnumeral : c ∉ Numeral.numeralChars := by
      intro hmem
      have hall : ∀ d ∈ Numeral.numeralChars, d.toLower ≠ 'p' :=
        List.all_iff_forall_prop.mp (by decide)
      exact hall c hmem hc
    have hdot : c :: cs ≠ ['.'] := fun h => hne (by decide) (List.cons.inj h).1
    have hword : c.toLower ∉ ['b', 'n', 't', 'f'] := by
      rw [hc]
      decide
    obtain ⟨hdouble, hdecimal, hdigits⟩ :=
      Numeral.isNumeral_eq_false hnumeral (List.mem_cons_self (l := cs))
    have hblank : after? ['_', ':'] (c :: cs) = none := by
      have hne : c ≠ '_' := hne (by decide)
      simp [after?, hne.symm]
    have hvar : queryVar? (c :: cs) = none := by
      refine queryVar?_cons_eq_none (fun hmem => ?_) cs
      rcases List.mem_pair.mp hmem with rfl | rfl <;> cases hc
    rw [atom_cons hdot (hne (by decide)) hword, wordless]
    simp only [hdouble, hdecimal, hdigits, Bool.false_eq_true, if_false, hblank, hvar]

/-- It opens a region one list deeper than it stands. -/
theorem meaning_of_beginsForm {text : List Char} (h : beginsForm text = true) (m : Memory) :
    meaning text m = (.symbol (String.ofList text), { m with region := some (m.depth + 1) }) := by
  -- So it is not a name to be defined, in a region that is open already.
  have hcolon : (text.getLast? == some ':') = false := by
    apply beq_eq_false_iff_ne.mpr
    intro hlast
    simp only [beginsForm, sameIgnoringCase, beq_iff_eq] at h
    have hmap := congrArg List.getLast? h
    rw [List.getLast?_map, hlast] at hmap
    revert hmap
    decide
  rw [meaning, atom_of_beginsForm h]
  show symbol (String.ofList text).toList m = _
  rw [String.toList_ofList]
  unfold symbol
  simp only [hcolon, Bool.and_false, Bool.false_eq_true, if_false]
  exact if_pos h

/-! ## Tokens -/

/-- The count and the region are as before. A name may be awaited that was not, if the word is one
to be defined in the region. -/
structure Stays (text : List Char) (m m' : Memory) : Prop where
  depth : m'.depth = m.depth
  region : m'.region = m.region
  name : m'.awaitedName = m.awaitedName ∨ m'.awaitedName = none ∨
    m.region.isSome = true ∧ text.getLast? = some ':' ∧
      m'.awaitedName = some (String.ofList text.dropLast)

theorem Stays.refl (text : List Char) (m : Memory) : Stays text m m := ⟨rfl, rfl, .inl rfl⟩

theorem Stays.mention {text : List Char} {m m' : Memory} (h : Stays text m m') (t : Term) :
    Stays text m (Sparql.mention t m').2 := ⟨h.depth, h.region, h.name⟩

/-- A blank node or a variable says nothing about the region. -/
theorem Stays.of_looksUp {text : List Char} {m m' : Memory} {t : Term} {v : Value}
    (h : LooksUp m t v m') : Stays text m m' := by
  cases h with
  | known _ _ => exact .refl text m
  | @new n _ _ => cases n <;> exact ⟨rfl, rfl, .inl rfl⟩
  | anonymous _ => exact ⟨rfl, rfl, .inl rfl⟩

/-- An IRI may give the awaited name its meaning. -/
theorem Stays.iri (text raw : List Char) (m : Memory) : Stays text m (Sparql.iri raw m).2 := by
  obtain ⟨i, ab, name, base, h, hname⟩ := iri_eq_mention raw m
  rw [h]
  refine ⟨rfl, rfl, ?_⟩
  rcases hname with hname | hname
  · exact .inl hname
  · exact .inr (.inl hname)

/-- A symbol may be a name to be defined. -/
theorem Stays.symbol {text : List Char} (h : beginsForm text = false) (m : Memory) :
    Stays text m (Sparql.symbol text m).2 := by
  rcases symbol_cases text m with ⟨hregion, hlast, hs⟩ | ⟨hword, -⟩ | hs | ⟨i, hs⟩
  · rw [hs]
    exact ⟨rfl, rfl, .inr (.inr ⟨hregion, hlast, rfl⟩)⟩
  · rw [beginsForm, hword] at h
    cases h
  · rw [hs]
    exact .refl text m
  · rw [hs]
    exact (Stays.refl text m).mention _

/-- A word other than the one that opens the region leaves it as it is. -/
theorem Stays.meaning {text : List Char} {m : Memory} (hm : m.Fair)
    (hword : beginsForm text = false) : Stays text m (meaning text m).2 := by
  cases htext : mentioned? text with
  | some t =>
    have hnode := isNode_of_mentioned htext
    have hfound := looksUp_lookUp hnode m
    obtain ⟨k, u, hv, -⟩ := hfound.exists_term hm hnode
    rw [meaning_of_mentioned htext, hv]
    exact .of_looksUp hfound
  | none =>
    rcases meaning_cases htext m with ⟨base, h⟩ | ⟨t, -, h⟩ | h
    · rw [h]
      have hstays := Stays.symbol hword { m with awaitsBase := base }
      exact ⟨hstays.depth, hstays.region, hstays.name⟩
    · rw [h]
      exact (Stays.refl text m).mention t
    · rw [h]
      exact .refl text m

/-- The token is no bracket and not the end. -/
def IsValue (token? : Option Token) : Prop := ∀ token ∈ token?, ∃ v, token = .value v

/-- What a token does to the count of lists and to the region, by the word that it gives a meaning
to. -/
inductive Mark (m : Memory) : List Char → Option Token → Memory → Prop
  | bracket {token : Token} : Mark m [] (some token) (m.seen token)
  | begins {text : List Char} {token? : Option Token} {m' : Memory} (word : beginsForm text = true)
      (value : IsValue token?) (depth : m'.depth = m.depth) (region : m'.region = some (m.depth + 1))
      (name : m'.awaitedName = m.awaitedName) : Mark m text token? m'
  | stays {text : List Char} {token? : Option Token} {m' : Memory} (word : beginsForm text = false)
      (value : IsValue token?) (stays : Stays text m m') : Mark m text token? m'
  /-- A bracket in the place of a datatype. -/
  | broken (token : Token) : Mark m [] none (m.seen token)

theorem isValue_some (v : Value) : IsValue (some (.value v)) := by
  rintro token ⟨⟩
  exact ⟨v, rfl⟩

theorem isValue_none : IsValue none := fun _ h => nomatch h

/-- **What a token does to the region** is told by its word, or by its bracket. -/
theorem mark_of_effect {m m' : Memory} {text : List Char} {token? : Option Token} (hm : m.Fair)
    (h : Effect m text token? m') : Mark m text token? m' := by
  have hnil : beginsForm [] = false := by decide
  -- The induction is on the datatypes within a token, and the word is that of the innermost one.
  induction h with
  | failed => exact .stays hnil isValue_none (.refl [] m)
  | bracket plain => exact .bracket
  | operator name => exact .stays hnil (isValue_some _) (.refl [] m)
  | iri raw => exact .stays hnil (isValue_some _) (.iri [] raw m)
  | literal l => exact .stays hnil (isValue_some _) ((Stays.refl [] m).mention _)
  | @word text ne_nil =>
    cases hword : beginsForm text with
    | true =>
      rw [meaning_of_beginsForm hword]
      exact .begins hword (isValue_some _) rfl rfl rfl
    | false => exact .stays hword (isValue_some _) (.meaning hm hword)
  | typed _ _ l ih =>
    cases ih with
    | bracket => exact .stays hnil (isValue_some _) ((Stays.refl [] m).mention _)
    | begins word _ depth region name => exact .begins word (isValue_some _) depth region name
    | stays word _ stays => exact .stays word (isValue_some _) (stays.mention _)
  | untyped other eq ih =>
    cases ih with
    | bracket => exact .broken _
    | begins word _ depth region name => exact .begins word isValue_none depth region name
    | stays word _ stays => exact .stays word isValue_none stays
    | broken token => exact .broken token

/-- A name is awaited anew only if the word is one to be defined in the region. -/
theorem Mark.name {m m' : Memory} {text : List Char} {token? : Option Token}
    (h : Mark m text token? m') :
    m'.awaitedName = m.awaitedName ∨ m'.awaitedName = none ∨
      m.region.isSome = true ∧ text.getLast? = some ':' ∧
        m'.awaitedName = some (String.ofList text.dropLast) := by
  have hseen (token : Token) : (m.seen token).awaitedName = m.awaitedName := by
    cases token <;> rfl
  cases h with
  | bracket => exact .inl (hseen _)
  | begins _ _ _ _ name => exact .inl name
  | stays _ _ stays => exact stays.name
  | broken token => exact .inl (hseen token)

/-! ## Runs -/

/-- The region `d` is that of the last `prefix` among the words of `past`, and the list that this
stands in has been open since, and is where `ctx` is. -/
def OpenedBy (past : List (Session Memory)) (ctx : List Frame) (d : Nat) : Prop :=
  ∃ before p since, past = before ++ p :: since ∧ beginsForm (spelled p) = true ∧
    (∀ q ∈ since, beginsForm (spelled q) = false ∧ p.context <:+ q.context) ∧
    p.context <:+ ctx ∧ d = p.context.length + 1

/-- The region goes on to be that of the list, if another token does not close it. -/
theorem OpenedBy.snoc {past : List (Session Memory)} {ctx : List Frame} {d : Nat}
    {a : Session Memory} (h : OpenedBy past a.context d) (hword : beginsForm (spelled a) = false)
    (hopen : ∀ inner, inner <:+ a.context → d = inner.length + 1 → inner <:+ ctx) :
    OpenedBy (past ++ [a]) ctx d := by
  obtain ⟨before, p, since, rfl, hp, hsince, hsuffix, hd⟩ := h
  refine ⟨before, p, since ++ [a], by simp, hp, ?_, hopen _ hsuffix hd, hd⟩
  intro q hq
  rcases List.mem_append.mp hq with hq | hq
  · exact hsince q hq
  · obtain rfl := List.mem_singleton.mp hq
    exact ⟨hword, hsuffix⟩

/-- Where `ctx` is open after tokens have been asked for in `past`, the lists are counted right, and
the region is that of an open list. -/
structure Stands (past : List (Session Memory)) (ctx : List Frame) (m : Memory) : Prop where
  depth : m.depth = ctx.length
  origin : ∀ d ∈ m.region, OpenedBy past ctx d

namespace Stands

variable {past : List (Session Memory)} {ctx ctx' : List Frame} {m m' : Memory}
  {a : Session Memory} {token : Token}

theorem bounds (h : Stands past ctx m) {d : Nat} (hd : d ∈ m.region) : 1 ≤ d ∧ d ≤ m.depth + 1 := by
  obtain ⟨before, p, since, -, -, -, hsuffix, rfl⟩ := h.origin d hd
  have hlength := hsuffix.length_le
  rw [h.depth]
  omega

/-- An opening or a closing bracket, or the end. -/
theorem seen (h : Stands past a.context a.memory) (hword : spelled a = [])
    (hturns : token.Turns a.context ctx) : Stands (past ++ [a]) ctx (a.memory.seen token) := by
  have hword : beginsForm (spelled a) = false := by
    rw [hword]
    decide
  have hkeeps (hsuffix : a.context <:+ ctx) :
      ∀ d ∈ a.memory.region, OpenedBy (past ++ [a]) ctx d := fun d hd =>
    (h.origin d hd).snoc hword fun inner hinner _ => hinner.trans hsuffix
  have hdepth := h.depth
  generalize hcontext : a.context = outer at hturns hdepth
  rw [hcontext] at hkeeps
  cases hturns with
  | ended => exact ⟨hdepth, hkeeps List.suffix_rfl⟩
  | value v => exact ⟨hdepth, hkeeps List.suffix_rfl⟩
  | opener b => exact ⟨congrArg (· + 1) hdepth, hkeeps (List.suffix_cons _ _)⟩
  | closer b =>
    have hcount : a.memory.depth - 1 = ctx.length := by
      rw [hdepth, List.length_cons, Nat.add_sub_cancel]
    refine ⟨hcount, fun d hd => ?_⟩
    obtain ⟨hd, hle⟩ := Option.mem_filter_iff.mp hd
    refine (h.origin d hd).snoc hword fun inner hinner hlength => ?_
    -- What is kept of the region is not that of the list that has been closed.
    rw [hcontext] at hinner
    rcases List.suffix_cons_iff.mp hinner with rfl | hinner
    · rw [List.length_cons] at hlength
      have hle := of_decide_eq_true hle
      omega
    · exact hinner

/-- **One token** keeps the count right. -/
theorem step (h : Stands past a.context a.memory) (hm : a.memory.Fair)
    (hread : sparql.tokenAt? a = some token) (hturns : token.Turns a.context ctx) :
    Stands (past ++ [a]) ctx (sparql.memoryAt a) := by
  have hmark := mark_of_effect hm (token_effect a)
  rw [hread] at hmark
  generalize htext : spelled a = text at hmark
  generalize sparql.memoryAt a = m' at hmark ⊢
  have hvalue (hvalue : IsValue (some token)) : ctx = a.context := by
    obtain ⟨v, rfl⟩ := hvalue token rfl
    cases hturns with
    | value _ _ => rfl
  cases hmark with
  | bracket => exact h.seen htext hturns
  | begins word value depth region _ =>
    rw [hvalue value]
    refine ⟨depth.trans h.depth, fun d hd => ?_⟩
    rw [region] at hd
    obtain rfl := Option.some.inj hd
    refine ⟨past, a, [], rfl, htext ▸ word, by simp, List.suffix_rfl, ?_⟩
    rw [h.depth]
  | stays word value stays =>
    rw [hvalue value]
    refine ⟨stays.depth.trans h.depth, fun d hd => ?_⟩
    rw [stays.region] at hd
    exact (h.origin d hd).snoc (htext ▸ word) fun inner hinner _ => hinner

end Stands

section Runs

variable {past asks : List (Session Memory)} {ctx ctx' : List Frame} {m m' : Memory}

/-- **A run** keeps the count right, wherever a token is asked for and at its end. -/
theorem stands_of_asked (hrun : sparql.Asked ctx m asks ctx' m') (hm : m.Fair)
    (h : Stands past ctx m) :
    (∀ before a after, asks = before ++ a :: after →
        Stands (past ++ before) a.context a.memory) ∧
      Stands (past ++ asks) ctx' m' := by
  induction hrun generalizing past with
  | nil =>
    rw [List.append_nil]
    exact ⟨fun before a after h => by simp at h, h⟩
  | @cons a token asks ctx ctx' m' hread hturns rest ih =>
    obtain ⟨hasks, hend⟩ := ih ((turn_at hm).fair hm) (h.step hm hread hturns)
    constructor
    · intro before b after heq
      cases before with
      | nil =>
        obtain rfl := (List.cons.inj heq).1
        rw [List.append_nil]
        exact h
      | cons c before =>
        obtain ⟨rfl, hrest⟩ := List.cons.inj heq
        have hlater := hasks before b after hrest
        rwa [List.append_assoc] at hlater
    · rwa [List.append_assoc] at hend

/-- The count is right wherever a run asks for a token, if it breaks off at last. -/
theorem stands_of_breaksOff (hrun : sparql.BreaksOff ctx m asks m') (hm : m.Fair)
    (h : Stands past ctx m) :
    ∀ before a after, asks = before ++ a :: after →
      Stands (past ++ before) a.context a.memory := by
  intro before a after heq
  cases hrun with
  | between run => exact (stands_of_asked run hm h).1 before a after heq
  | @within asks b run =>
    -- What the last token does is not known, but it is asked for at the end of a run.
    obtain ⟨hasks, hend⟩ := stands_of_asked run hm h
    rcases List.eq_nil_or_concat' after with rfl | ⟨after, c, rfl⟩
    · obtain ⟨rfl, hlast⟩ := List.append_inj' heq rfl
      obtain rfl := (List.cons.inj hlast).1
      exact hend
    · rw [← List.cons_append, ← List.append_assoc] at heq
      exact hasks before a after (List.append_inj' heq rfl).1

end Runs

/-! ## Calls -/

/-- What a token other than a value does to the memory is what a session sees of it. -/
theorem memoryAt_of_plain {a : Session Memory} {token : Token}
    (hread : sparql.tokenAt? a = some token) (hplain : ∀ v, token ≠ .value v) :
    sparql.memoryAt a = a.memory.seen token := by
  have heffect := token_effect a
  rw [hread] at heffect
  generalize spelled a = text at heffect
  generalize sparql.memoryAt a = m' at heffect ⊢
  cases heffect with
  | bracket _ => rfl
  | operator name => exact absurd rfl (hplain _)
  | iri raw => exact absurd rfl (hplain _)
  | literal l => exact absurd rfl (hplain _)
  | word _ => exact absurd rfl (hplain _)
  | typed _ _ l => exact absurd rfl (hplain _)

/-- A closing bracket that leaves no list open leaves no region. -/
theorem region_of_closer {past : List (Session Memory)} {a : Session Memory} {b : Bracket}
    (h : Stands past a.context a.memory) (hread : sparql.tokenAt? a = some (.closer b))
    (hturns : Token.Turns (.closer b) a.context []) : (sparql.memoryAt a).region = none := by
  have hdepth := h.depth
  generalize a.context = outer at hdepth hturns
  cases hturns
  rw [memoryAt_of_plain hread fun _ => Token.noConfusion]
  show a.memory.region.filter (· ≤ a.memory.depth - 1) = none
  apply Option.filter_eq_none_iff.mpr
  intro d hd hle
  have hpos := (h.bounds hd).1
  rw [hdepth] at hle
  have hle : d ≤ 0 := of_decide_eq_true hle
  omega

/-- **After a list** there is no region. -/
theorem region_of_list {past : List (Session Memory)} {s : Session Memory} {call : Call}
    {items : List Value} (hm : s.memory.Fair) (hs : s.context = [])
    (h : Stands past s.context s.memory)
    (hlast : (call.answer sparql s).items.getLast? = some (.list items)) :
    (call.run sparql s).memory.region = none := by
  obtain ⟨-, hasked⟩ := Flat.call_asked .sparql s call
  have hok : ∀ e, call.answer sparql s ≠ .failed e := by
    intro e he
    rw [he] at hlast
    cases hlast
  obtain ⟨hrun, us, hus, htokens⟩ := hasked hok
  have hplain : ∀ items, .value (.list items) ∉ us := by
    intro items hmem
    have hmem : .value (.list items) ∈ (call.asked sparql s).filterMap sparql.tokenAt? := by
      rcases htokens with htokens | htokens
      · rw [htokens]
        exact hmem
      · rw [htokens]
        exact List.mem_append_left _ hmem
    obtain ⟨a, ha, hread⟩ := List.mem_filterMap.mp hmem
    rcases value_at (grows_of_linked hrun.linked hm a ha).2 hread with ⟨_, heq⟩ | ⟨_, _, heq⟩
    · cases heq
    · cases heq
  obtain ⟨ts, b, rfl⟩ := hus.exists_closer hplain hlast
  -- The last token, but for the end, is the closing bracket of the list.
  have hclosed {asks : List (Session Memory)} {m' : Memory}
      (hrun : sparql.Asked s.context s.memory asks s.context m')
      (htokens : asks.filterMap sparql.tokenAt? = ts ++ [.closer b]) : m'.region = none := by
    obtain ⟨before, a, rfl, hread, hturns, rfl, hbefore, -⟩ := hrun.exists_last htokens
    rw [hs] at hturns
    exact region_of_closer (stands_of_asked hbefore hm h).2 hread hturns
  rcases htokens with htokens | htokens
  · exact hclosed hrun htokens
  · obtain ⟨before, a, -, hread, hturns, hmemory, hbefore, htokens⟩ := hrun.exists_last htokens
    rw [← hmemory, memoryAt_of_plain hread fun _ => Token.noConfusion]
    rw [← hturns.of_ended] at hbefore
    exact hclosed hbefore htokens

/-- A session that has not been used has no list open. -/
theorem stands_start (ab : Abbreviations) : Stands [] [] { abbreviations := ab } :=
  ⟨rfl, fun _ h => nomatch h⟩

/-- **The region follows the lists.** In a session in which no call has failed, wherever a token is
asked for, by one more call too, as many lists are counted as are open. The region is that of the
last `prefix`, and the list that this stands in is still open; a symbol is a name to be defined only
in a region. Between the calls no list is counted, and after a list there is no region. -/
theorem region_follows_lists (text : List Char) (fault : Option Fault) (ab : Abbreviations)
    (limit : Nat) (calls : List Call) (call : Call)
    (hok : ∀ answer ∈ Call.answers sparql (.fresh text fault { abbreviations := ab } limit) calls,
      ∀ e, answer ≠ .failed e) :
    let s : Session Memory := .fresh text fault { abbreviations := ab } limit
    let u := Call.after sparql s calls
    let asks := (Call.trace sparql s calls).flatten ++ call.asked sparql u
    (∀ a ∈ asks, a.memory.depth = a.context.length ∧
        ∀ d ∈ a.memory.region, 1 ≤ d ∧ d ≤ a.memory.depth + 1) ∧
      (u.memory.depth = 0 ∧ ∀ d ∈ u.memory.region, 1 ≤ d ∧ d ≤ u.memory.depth + 1) ∧
      (∀ items, (call.answer sparql u).items.getLast? = some (.list items) →
        (call.run sparql u).memory.region = none) ∧
      ∀ before a after, asks = before ++ a :: after →
        (∀ d ∈ a.memory.region, OpenedBy before a.context d) ∧
          ∀ name, (sparql.memoryAt a).awaitedName = some name →
            a.memory.awaitedName = some name ∨
              a.memory.region.isSome = true ∧ (spelled a).getLast? = some ':' ∧
                name = String.ofList (spelled a).dropLast := by
  intro s u asks
  have hfair : s.memory.Fair := fair_start ab
  obtain ⟨hrun, hcontext⟩ := Flat.asked_trace .sparql hok
  have hcall := (Flat.call_asked .sparql u call).1
  rw [show u.context = s.context from hcontext] at hcall
  -- The calls make one run, and the last one may break it off.
  have hall := hrun.breaksOff hcall
  have hend := (stands_of_asked hrun hfair (stands_start ab)).2
  have hstands : ∀ before a after, asks = before ++ a :: after →
      Stands before a.context a.memory := stands_of_breaksOff hall hfair (stands_start ab)
  have hdepth : u.memory.depth = 0 := hend.depth
  refine ⟨fun a ha => ?_, ⟨hdepth, fun d hd => hend.bounds hd⟩, fun items hlast => ?_, ?_⟩
  · obtain ⟨before, after, heq⟩ := List.append_of_mem ha
    have ha := hstands before a after heq
    exact ⟨ha.depth, fun d hd => ha.bounds hd⟩
  · have hm : u.memory.Fair := fair_of_linked hrun.linked hfair
    have hu : Stands (Call.trace sparql s calls).flatten u.context u.memory := by
      rw [show u.context = s.context from hcontext]
      exact hend
    exact region_of_list hm hcontext hu hlast
  · intro before a after heq
    have ha := hstands before a after heq
    have hmem : a ∈ asks := by
      rw [heq]
      exact List.mem_append_right _ List.mem_cons_self
    -- A name that is awaited after the token is one that was awaited, or it is defined by the
    -- token.
    have hm := (grows_of_linked hall.linked hfair a hmem).2
    refine ⟨ha.origin, fun name hname => ?_⟩
    rcases (mark_of_effect hm (token_effect a)).name with h | h | ⟨hregion, hlast, h⟩
    · exact .inl (h.symm.trans hname)
    · rw [hname] at h
      cases h
    · rw [hname] at h
      exact .inr ⟨hregion, hlast, Option.some.inj h⟩

theorem list?_eq_some {v : Value} {items : List Value} (h : v.list? = some items) :
    v = .list items := by
  cases v with
  | list items => exact congrArg _ (Option.some.inj h)
  | atom a => cases h
  | vector items => cases h
  | term k t => cases h

/-- A `prefix` outside of all lists opens a region for the list after it, in which `a:` is a name to
be defined, and no longer. -/
theorem region_follows_lists_outside :
    let s : Session Memory := .fresh "prefix (a: <http://a/>)".toList none {} 500
    let u := Call.after sparql s [.read]
    (u.memory.depth = 0 ∧ u.memory.region = some 1) ∧
      (Call.read.run sparql u).memory.region = none ∧
      ∃ p opener name rest,
        (Call.trace sparql s [.read]).flatten ++ Call.read.asked sparql u =
          p :: opener :: name :: rest ∧
        spelled name = "a:".toList ∧ name.memory.region = some 1 ∧
        OpenedBy [p, opener] name.context 1 := by
  intro s u
  have hitems : ∀ answer ∈ Call.answers sparql s [.read], answer.items.isEmpty = false := by
    decide +kernel
  have hok : ∀ answer ∈ Call.answers sparql s [.read], ∀ e, answer ≠ .failed e := by
    rintro answer hmem e rfl
    cases hitems _ hmem
  obtain ⟨-, ⟨hdepth, -⟩, hclosed, hopened⟩ :=
    region_follows_lists "prefix (a: <http://a/>)".toList none {} 500 [.read] .read hok
  have hasks : ((Call.trace sparql s [.read]).flatten ++ Call.read.asked sparql u).map
      (fun a => (spelled a, a.memory.region)) =
      [("prefix".toList, none), ([], some 1), ("a:".toList, some 1), ([], some 1), ([], some 1)] := by
    decide +kernel
  simp only [List.map_eq_cons_iff, List.map_eq_nil_iff, Prod.mk.injEq] at hasks
  obtain ⟨p, -, hasks, -, opener, -, rfl, -, name, rest, rfl, ⟨hname, hregion⟩, -⟩ := hasks
  refine ⟨⟨hdepth, by decide +kernel⟩, ?_, p, opener, name, rest, hasks, hname, hregion, ?_⟩
  · have hlist : ((Call.read.answer sparql u).items.getLast?.bind Value.list?).isSome = true := by
      decide +kernel
    obtain ⟨items, hlist⟩ := Option.isSome_iff_exists.mp hlist
    obtain ⟨v, hlast, hv⟩ := Option.bind_eq_some_iff.mp hlist
    obtain rfl := list?_eq_some hv
    exact hclosed items hlast
  · exact (hopened [p, opener] name rest hasks).1 1 hregion

end SExpr.Dialect.Sparql
