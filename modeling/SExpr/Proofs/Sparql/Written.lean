import SExpr.Proofs.Misread
import SExpr.Proofs.Sparql.Output
import SExpr.Proofs.Sparql.Terms

/-!
# Written leaves of SPARQL expressions

A leaf that was read is written under the abbreviations of the form it stands in, and read again by
a session that has abbreviations of its own. Its text is then one token, and is read among others
as it is read alone; or it begins with a token for something else.

* **`alone`**: what a session makes of a text that is one token.
* **`InForce`**: the names that abbreviations go by have been symbols.
* **`takes_iri`**: the token that the text of an IRI begins with.
* **`settles_leaf`**: each leaf is read as if it stood alone, or misread. The one exception is an
  IRI in a namespace called `<`, whose colon makes the name the beginning of another IRI.
-/

namespace SExpr.Dialect.Sparql

open ReadM Text

/-! ## Tokens on their own -/

/-- What a session that remembers `m` reads from the text, if the text is one token for a value. -/
def alone (text : List Char) (m : Memory) : Option (Value × Memory) :=
  match token (.start (.ofString (String.ofList text)) m) with
  | .ok (.value v) s => if s.cursor.unread.isEmpty then some (v, s.memory) else none
  | _ => none

theorem before_start (text : List Char) (m : Memory) :
    (Session.start (.ofString (String.ofList text)) m).cursor.Before text := by
  have h := before_ofString (String.ofList text)
  rwa [String.toList_ofList] at h

/-- A text of which nothing is left over is one token. -/
theorem alone_of_yields {m m' : Memory} {text left : List Char} {w : Value}
    (h : Yields token m text (.value w) m' left) :
    alone text m = if left.isEmpty then some (w, m') else none := by
  obtain ⟨c, hc, hok⟩ := h _ rfl (before_start text m)
  unfold alone
  rw [hok]
  simp only [hc.unread]

/-- A text that no token can be read from is none. -/
theorem alone_eq_none {m : Memory} {text : List Char}
    (h : ∀ s : Session Memory, s.memory = m → s.cursor.Before text →
      Ensures token s fun _ _ => False) : alone text m = none := by
  unfold alone
  split
  · next hok => exact (h _ rfl (before_start text m) _ _ hok).elim
  · rfl

/-- A written leaf is read as some value, alone and among others alike, or it is misread. -/
inductive Settles (room : Nat) (m : Memory) (text : List Char) (v : Value) : Prop where
  | read {w : Value} {m' : Memory} (hm' : m'.Sound) (h : sparql.ReadsLeaf room m text w m')
      (halone : alone text m = some (w, m'))
  | missed (h : sparql.MissesLeaf room m text v) (halone : alone text m = none)

/-- The text begins neither with a blank or a closing bracket nor with a comment. -/
def Opens (text : List Char) : Prop :=
  ∃ c cs, text = c :: cs ∧ isBlank c = false ∧ c ∉ [')', ';', '#']

theorem Opens.leads {text : List Char} (h : Opens text) : Box.Leads text := by
  obtain ⟨c, cs, rfl, hblank, hc⟩ := h
  exact ⟨c, cs, rfl, hblank, fun heq => hc (by simp [heq])⟩

/-- A text that opens like a leaf stands at a token. -/
theorem Opens.stands {text : List Char} (h : Opens text) (nested : Nested Memory)
    (rest : List Char) : sparql.Stands nested (text ++ rest) := by
  obtain ⟨c, cs, rfl, hblank, hc⟩ := h
  refine Sparql.stands (bare_cons hblank ?_ _)
  simp only [List.mem_cons, not_or] at hc
  simp [hc]

/-- A text that begins with a token for `w` and goes on with `left`. -/
theorem settles_of_yields {room : Nat} {m m' : Memory} {text left : List Char} {v w : Value}
    (hopens : Opens text) (hm' : m'.Sound)
    (h : ∀ rest, Delimits rest → Yields token m (text ++ rest) (.value w) m' (left ++ rest))
    (hleft : left ≠ [] → w.eq v = false) : Settles room m text v := by
  have halone := h [] (by simp [Delimits])
  rw [List.append_nil, List.append_nil] at halone
  replace halone := alone_of_yields halone
  -- If anything is left, it is read as something else, but then `w` already differs from `v`.
  cases left with
  | nil =>
    exact .read hm' ⟨hopens.leads, fun rest _ => hopens.stands _ rest, h⟩ halone
  | cons c left =>
    refine .missed ⟨fun rest _ => hopens.stands _ rest,
      fun rest s hrest hm hs t s' hok => ?_⟩ halone
    obtain ⟨rfl, -⟩ := (h rest hrest).unique hm hs hok
    exact ⟨w, rfl, hleft (by simp)⟩

/-- A text that no session reads. -/
theorem settles_of_fails {room : Nat} {m : Memory} {text : List Char} {v : Value}
    (hopens : Opens text)
    (h : ∀ rest (s : Session Memory), Delimits rest → s.memory = m →
      s.cursor.Before (text ++ rest) → Ensures token s fun _ _ => False) :
    Settles room m text v := by
  refine .missed ⟨fun rest _ => hopens.stands _ rest, fun rest s hrest hm hs => ?_⟩ ?_
  · exact (h rest s hrest hm hs).mono fun _ _ hfalse => hfalse.elim
  · refine alone_eq_none fun s hm hs => h [] s (by simp [Delimits]) hm ?_
    rwa [List.append_nil]

/-! ## Abbreviations in force -/

/-- A name that has been a symbol, perhaps without its colon. -/
def IsShort (name : String) : Prop :=
  name.toList.all lexicon.isAtomChar = true ∧
    (∀ c ∈ name.toList.head?, c ∉ ['"', '\'', ';', '#']) ∧
    (name.toList.head? = some '<' → name = "<" ∨ name = "<=")

/-- The names have been symbols, and the name `<` is among them only if `less` holds. -/
def InForce (less : Prop) (ab : Abbreviations) : Prop :=
  ∀ e ∈ ab.namespaces, IsShort e.1 ∧ (e.1 = "<" → less)

/-- The entry that is found to be best is one of the table. -/
theorem mem_of_foldl_best {table : Namespaces} {best : Option (String × String)}
    {e : String × String}
    (h : table.foldl (fun best e =>
      match best with
      | some b => if b.2.length ≤ e.2.length then some e else some b
      | none => some e) best = some e) : best = some e ∨ e ∈ table := by
  induction table generalizing best with
  | nil => exact .inl h
  | cons d table ih =>
    rcases ih h with hd | hmem
    · cases best with
      | none => exact .inr (by simp_all)
      | some b =>
        dsimp only at hd
        split at hd
        · exact .inr (by simp_all)
        · exact .inl hd
    · exact .inr (List.mem_cons_of_mem d hmem)

/-- The parts of a prefixed name. -/
theorem prefixedName?_eq_some {i : Iri} {table : Namespaces} {text : List Char}
    (h : i.prefixedName? table = some text) : ∃ e ∈ table, ∃ rest,
      text = e.1.toList ++ ':' :: rest ∧ isLocalName rest = true ∧
        i.text.toList = e.2.toList ++ rest := by
  rw [Iri.prefixedName?, Option.bind_eq_some_iff] at h
  obtain ⟨e, hbest, h⟩ := h
  rw [Option.map_eq_some_iff] at h
  obtain ⟨rest, hrest, rfl⟩ := h
  rw [Iri.localName?, Option.filter_eq_some_iff] at hrest
  refine ⟨e, ?_, rest, rfl, hrest.2, eq_append_of_after? hrest.1⟩
  rcases mem_of_foldl_best hbest with hnone | hmem
  · cases hnone
  · exact (List.mem_filter.mp hmem).1

/-- The parts of a relative reference. -/
theorem relative?_eq_some {i : Iri} {base : Option String} {text : List Char}
    (h : i.relative? base = some text) : ∃ b, base = some b ∧ '#' ∉ b.toList ∧ ∃ rest,
      text = '<' :: (rest ++ ['>']) ∧ Iri.isRelativeRest b.toList rest = true ∧
        i.text.toList = b.toList ++ rest := by
  rw [Iri.relative?, Option.bind_eq_some_iff] at h
  obtain ⟨b, hbase, h⟩ := h
  split at h
  · cases h
  · next hsharp =>
    rw [Option.map_eq_some_iff] at h
    obtain ⟨rest, hrest, rfl⟩ := h
    rw [Option.filter_eq_some_iff] at hrest
    exact ⟨b, hbase, by simpa using hsharp, rest, rfl, hrest.2, eq_append_of_after? hrest.1⟩

/-- A local name is a literal, has no closing bracket in it and does not begin with the equals sign.
-/
theorem isLocalName_spec {cs : List Char} (h : isLocalName cs = true) :
    cs ≠ [] ∧ cs.all lexicon.isAtomChar = true ∧ '>' ∉ cs ∧ '=' ∉ cs := by
  have hothers : isAlphanumeric '>' = false ∧ isAlphanumeric '=' = false := by decide +kernel
  unfold isLocalName at h
  rw [Bool.and_eq_true, Bool.and_eq_true, List.all_eq_true] at h
  obtain ⟨⟨hne, -⟩, hall⟩ := h
  refine ⟨?_, ?_, ?_, ?_⟩
  · rintro rfl
    cases hne
  · rw [List.all_eq_true]
    intro c hc
    have hc := hall c hc
    simp only [Bool.or_eq_true, beq_iff_eq] at hc
    rcases hc with ((hc | rfl) | rfl) | rfl
    · exact isAtomChar_of_isAlphanumeric hc
    all_goals decide
  · intro hmem
    have hc := hall _ hmem
    simp [hothers.1] at hc
  · intro hmem
    have hc := hall _ hmem
    simp [hothers.2] at hc

/-! ## Texts of IRIs -/

/-- The text begins with a token for `w` and goes on with `left`, wherever a token may stand. -/
def Takes (m : Memory) (text : List Char) (w : Value) (m' : Memory) (left : List Char) : Prop :=
  ∀ allowance rest : List Char, Delimits rest →
    Yields (tokenIn allowance) m (text ++ rest) (.value w) m' (left ++ rest)

/-- The meaning of a word leaves the memory sound. -/
theorem Memory.Sound.meaning {m : Memory} (h : m.Sound) {starts text : List Char}
    (htext : IsWord starts text) : (meaning text m).2.Sound := by
  have hatom := (isRead_atom (.inl htext.2.1) htext.2.2 h).1
  unfold Sparql.meaning classify
  split
  · exact hatom.symbol _
  · exact hatom

/-- A word is taken whole, with its meaning. -/
theorem takes_word {starts text : List Char} (htext : IsWord starts text) (m : Memory) :
    Takes m text (meaning text m).1 (meaning text m).2 [] := by
  obtain ⟨hne, hall, hhead⟩ := htext
  cases text with
  | nil => exact absurd rfl hne
  | cons c cs =>
    intro allowance rest hrest
    refine yields_tokenIn (fun _ => ?_) allowance
    exact yields_tokenWith_literal hall (hhead c rfl).1 m hrest

/-- The text of an IRI in brackets is taken up to the first closing bracket. -/
theorem takes_raw {raw : List Char} (hraw : IsRaw raw) (m : Memory) (left : List Char) :
    Takes m ('<' :: (raw ++ '>' :: left)) (iri raw m).1 (iri raw m).2 left := by
  intro allowance rest _
  refine yields_tokenIn (fun _ => ?_) allowance
  rw [List.cons_append, List.append_assoc, List.cons_append]
  exact yields_tokenWith_angle hraw m (left ++ rest)

theorem takes_lessEqual (m : Memory) (left : List Char) :
    Takes m ('<' :: '=' :: left) (.symbol "<=") m left := by
  intro allowance rest _
  exact yields_tokenIn (fun _ => yields_tokenWith_lessEqual m (left ++ rest)) allowance

/-- A bracket before a delimiter is taken alone. -/
theorem takes_less (m : Memory) {left : List Char}
    (hleft : ∀ c ∈ left.head?, lexicon.isAtomChar c = false) :
    Takes m ('<' :: left) (.symbol "<") m left := by
  intro allowance rest hrest
  refine yields_tokenIn (fun _ => yields_tokenWith_less m fun c hc => ?_) allowance
  cases left with
  | nil => exact Lexicon.isAtomChar_of_delimits (by decide) hrest c hc
  | cons d left => exact hleft c hc

/-- Only one bracket can come before the equals sign there. -/
theorem eq_less_of_append_cons {before raw : List Char} (h : ['<', '='] = before ++ '=' :: raw) :
    before = ['<'] := by
  cases before with
  | nil => simp at h
  | cons c before =>
    cases before with
    | nil =>
      obtain ⟨rfl, -⟩ := List.cons.inj h
      rfl
    | cons d before => simp at h

/-- What a text begins with that was meant for an IRI in angle brackets, where `i` is an IRI that
ends in the text between them. If the bracket is taken for an operator, or is closed too early, then
the token is not taken for `i`. -/
theorem takes_angle {i : Iri} {before raw : List Char} (hi : i.text.toList = before ++ raw)
    (hbefore : raw.head? = some '=' → before ≠ ['<']) {m : Memory} (hm : m.Sound) :
    ∃ w m' left, m'.Sound ∧ Takes m ('<' :: (raw ++ ['>'])) w m' left ∧
      (left ≠ [] → ∀ j, datatypeOf? w = some j → j.text ≠ i.text) := by
  cases hhead : (raw ++ ['>']).head? with
  | none => simp at hhead
  | some c =>
    by_cases hc : lexicon.isAtomChar c = true
    · by_cases heq : c = '='
      · subst heq
        cases raw with
        | nil => cases hhead
        | cons d raw =>
          cases hhead
          refine ⟨.symbol "<=", m, raw ++ ['>'], hm, takes_lessEqual m _, fun _ j hj hji => ?_⟩
          -- The operator would be taken for an IRI of that text.
          cases hj
          rw [← hji] at hi
          exact hbefore rfl (eq_less_of_append_cons hi)
      · by_cases hclose : '>' ∈ raw
        · -- The token ends at the first closing bracket, so its IRI lacks that character.
          obtain ⟨first, last, rfl, hfirst⟩ := List.eq_append_cons_of_mem hclose
          have hraw : IsRaw first := by
            refine ⟨hfirst, fun d hd => ?_⟩
            have hfirst : (first ++ ['>']).head? = some c := by
              rw [← hhead]
              cases first <;> rfl
            rw [hfirst, Option.mem_some_iff] at hd
            exact hd ▸ ⟨hc, heq⟩
          rw [List.append_assoc, List.cons_append]
          refine ⟨_, _, _, hm.iri hfirst, takes_raw hraw m _, fun _ j hj hji => ?_⟩
          obtain ⟨n, hn⟩ := iri_fst first m
          rw [hn, datatypeOf?, Option.some.injEq] at hj
          have hmem := not_mem_resolved hm.base hfirst
          rw [hj, hji, hi] at hmem
          simp at hmem
        · have hraw : IsRaw raw := by
            refine ⟨hclose, fun d hd => ?_⟩
            rw [hhead, Option.mem_some_iff] at hd
            exact hd ▸ ⟨hc, heq⟩
          exact ⟨_, _, [], hm.iri hclose, takes_raw hraw m [], fun h => absurd rfl h⟩
    · cases raw with
      | nil =>
        cases hhead
        exact absurd (by decide) hc
      | cons d raw =>
        cases hhead
        refine ⟨.symbol "<", m, c :: raw ++ ['>'], hm, takes_less m (by simpa using hc),
          fun _ j hj hji => ?_⟩
        cases hj
        have hmem : c ∈ i.text.toList := by simp [hi]
        rw [← hji] at hmem
        have hless : c = '<' := by simpa using hmem
        subst hless
        exact hc (by decide)

/-- A name and a local name, with a colon between them, are a word. -/
theorem isWord_prefixed {starts : List Char} (hstarts : ∀ c ∈ starts, c ∈ [';', '#'])
    {name : String} {rest : List Char} (hname : IsShort name) (hless : name.toList.head? ≠ some '<')
    (hrest : isLocalName rest = true) : IsWord starts (name.toList ++ ':' :: rest) := by
  have hcolon : lexicon.isAtomChar ':' = true := by decide
  refine ⟨by simp, ?_, fun c hc => ?_⟩
  · rw [List.all_append, List.all_cons, hname.1, hcolon, (isLocalName_spec hrest).2.1]
    rfl
  · cases hcs : name.toList with
    | nil =>
      rw [hcs] at hc
      cases hc
      exact ⟨by decide, fun hmem => absurd (hstarts _ hmem) (by decide)⟩
    | cons d cs =>
      rw [hcs] at hc hless
      cases hc
      have hfirst := hname.2.1 c (by simp [hcs])
      simp only [List.mem_cons, List.not_mem_nil, or_false, not_or] at hfirst ⊢
      simp only [List.head?_cons, ne_eq, Option.some.injEq] at hless
      refine ⟨⟨hfirst.1, hfirst.2.1, hless⟩, fun hmem => ?_⟩
      have := hstarts c hmem
      simp_all

/-- **The token that a written IRI begins with.** If it is not all of the text, it is not taken for
that IRI. A namespace called `<` is left out. -/
theorem takes_iri {less : Prop} {starts : List Char} (hstarts : ∀ c ∈ starts, c ∈ [';', '#'])
    {i : Iri} (hi : KeepsText starts i) {ab : Abbreviations} (hab : InForce less ab) {m : Memory}
    (hm : m.Sound) :
    (less ∧ ∃ cs, i.written ab = '<' :: ':' :: cs ∧ '>' ∉ cs) ∨
      ∃ w m' left, m'.Sound ∧ Takes m (i.written ab) w m' left ∧
        (left ≠ [] → ∀ j, datatypeOf? w = some j → j.text ≠ i.text) := by
  have hword {text : List Char} (htext : IsWord starts text) : ∃ w m' left, m'.Sound ∧
      Takes m text w m' left ∧ (left ≠ [] → ∀ j, datatypeOf? w = some j → j.text ≠ i.text) :=
    ⟨_, _, [], hm.meaning htext, takes_word htext m, fun h => absurd rfl h⟩
  unfold Iri.written
  split
  · next text hlexical =>
    rcases hi text hlexical with htext | ⟨raw, htext, hraw⟩
    · exact .inr (hword htext)
    · rw [htext]
      exact .inr ⟨_, _, [], hm.iri hraw.1, takes_raw hraw m [], fun h => absurd rfl h⟩
  · cases hprefixed : i.prefixedName? ab.namespaces with
    | some text =>
      obtain ⟨e, he, rest, rfl, hrest, htext⟩ := prefixedName?_eq_some hprefixed
      obtain ⟨hname, hless⟩ := hab e he
      rw [Option.getD_some]
      by_cases hhead : e.1.toList.head? = some '<'
      · obtain ⟨hne, -, hclose, hequals⟩ := isLocalName_spec hrest
        rcases hname.2.2 hhead with hname | hname
        · exact .inl ⟨hless hname, rest, by rw [hname]; rfl, hclose⟩
        · -- The name is an operator, and the colon begins the next token.
          rw [hname]
          refine .inr ⟨.symbol "<=", m, ':' :: rest, hm, takes_lessEqual m _, fun _ j hj hji => ?_⟩
          cases hj
          rw [← hji] at htext
          have hlast : '=' ∈ rest := by
            have h : (e.2.toList ++ rest).getLast? = some '=' := by
              rw [← htext]
              rfl
            rw [List.getLast?_append, List.getLast?_eq_some_getLast hne, Option.some_or] at h
            exact List.mem_of_getLast? (List.getLast?_eq_some_getLast hne ▸ h)
          exact hequals hlast
      · exact .inr (hword (isWord_prefixed hstarts hname hhead hrest))
    | none =>
      rw [Option.getD_none]
      cases hrelative : i.relative? ab.base with
      | some text =>
        obtain ⟨base, -, -, rest, rfl, hrest, htext⟩ := relative?_eq_some hrelative
        refine .inr (takes_angle htext ?_ hm)
        intro hhead hless
        simp [Iri.isRelativeRest, hhead, hless] at hrest
      | none =>
        have htext : i.text.toList = [] ++ i.text.toList := rfl
        exact .inr (takes_angle htext (by simp) hm)

/-! ## Texts that are not read -/

/-- An IRI that is not closed. -/
theorem ensures_tokenIn_unclosed {c : Char} {cs : List Char} (hc : lexicon.isAtomChar c = true)
    (heq : c ≠ '=') (hclose : '>' ∉ c :: cs) {γ : Type} (allowance : List γ)
    {s : Session Memory} (hs : s.cursor.Before ('<' :: c :: cs)) :
    Ensures (tokenIn allowance) s fun _ _ => False := by
  have hwith (datatype : ReadM Memory Iri) : Ensures (tokenWith datatype) s fun _ _ => False := by
    refine ensures_here fun p => ?_
    refine ensures_bind_of_yields (.onCursor (Cursor.yields_peek _) _) rfl hs fun c₁ hc₁ => ?_
    refine ensures_bind_of_yields (.onCursor (Cursor.yields_take? _) _) rfl hc₁ fun c₂ hc₂ => ?_
    refine Ensures.bind (P := fun _ _ => False) ?_ fun _ _ hfalse => hfalse.elim
    refine ensures_bind_of_yields (.onCursor (Cursor.yields_peek _) _) rfl hc₂ fun c₃ hc₃ => ?_
    simp only [List.tail_cons, List.head?_cons, hc, Bool.not_true, Bool.false_eq_true, if_false,
      if_neg heq]
    refine (ensures_onCursor (Lexeme.ensures_bracketedIri p _)).bind fun raw s₁ h₁ => ?_
    obtain ⟨-, -, rest, hraw⟩ := h₁
    -- Had it been read, the text would have a closing bracket.
    have hunread : c :: cs = raw ++ '>' :: rest := hc₃.unread.symm.trans hraw
    rw [hunread] at hclose
    simp at hclose
  cases allowance <;> exact hwith _

/-- A token that is taken for no datatype. -/
theorem ensures_datatype_none {token : ReadM Memory Token} {m m' : Memory} {cs rest : List Char}
    {v : Value} (h : Yields token m cs (.value v) m' rest) (hv : datatypeOf? v = none)
    {s : Session Memory} (hm : s.memory = m) (hs : s.cursor.Before cs) :
    Ensures (datatype token) s fun _ _ => False := by
  refine ensures_here fun p => ensures_bind_of_yields h hm hs fun c hc => ?_
  unfold datatypeOf? at hv
  dsimp only
  split
  · cases hv
  · cases hv
  · exact ensures_fail

/-- A literal whose datatype is not read. -/
theorem ensures_token_typed {quote : Quote} {text cs : List Char} {m : Memory}
    (h : ∀ (allowance : List Char) (s : Session Memory), s.memory = m → s.cursor.Before cs →
      Ensures (datatype (tokenIn allowance)) s fun _ _ => False)
    {s : Session Memory} (hm : s.memory = m)
    (hs : s.cursor.Before (Quoted.written quote text ++ '^' :: '^' :: cs)) :
    Ensures token s fun _ _ => False := by
  have hquoted (allowance : List Char) (s : Session Memory) (hm : s.memory = m)
      (hs : s.cursor.Before (Quoted.written quote text ++ '^' :: '^' :: cs)) :
      Ensures (quoted (datatype (tokenIn allowance))) s fun _ _ => False := by
    -- The text and the two marks are read, and then the datatype fails.
    refine ensures_bind_of_yields (.onCursor (Lexeme.yields_string quote text _) _) hm hs
      fun c₁ hc₁ => ?_
    refine ensures_bind_of_yields (.onCursor (Cursor.yields_peek _) _) rfl hc₁ fun c₂ hc₂ => ?_
    refine ensures_here fun p => ?_
    refine ensures_bind_of_yields (.onCursor (Cursor.yields_take? _) _) rfl hc₂ fun c₃ hc₃ => ?_
    refine ensures_bind_of_yields (.onCursor (Cursor.yields_take _ _ _) _) rfl hc₃ fun c₄ hc₄ => ?_
    exact (h allowance _ rfl hc₄).bind fun _ _ hfalse => hfalse.elim
  have hwith (allowance : List Char) :
      Ensures (tokenWith (datatype (tokenIn allowance))) s fun _ _ => False := by
    refine ensures_here fun p => ?_
    refine ensures_bind_of_yields (.onCursor (Cursor.yields_peek _) _) hm hs fun c hc => ?_
    have hq := (hquoted allowance { s with cursor := c, memory := m } rfl hc).bind
      (f := fun v => pure (Token.value v)) (Q := fun _ _ => False) fun _ _ hfalse => hfalse.elim
    cases quote <;> exact hq
  intro t s' hok
  rw [token_def, hs.unread] at hok
  exact hwith _ t s' hok

/-! ## Leaves -/

section Leaves

variable {less : Prop} {ab : Abbreviations} {room : Nat} {m : Memory}

theorem Takes.yields_token {text left rest : List Char} {w : Value} {m' : Memory}
    (h : Takes m text w m' left) (hrest : Delimits rest) :
    Yields token m (text ++ rest) (.value w) m' (left ++ rest) :=
  yields_token_of_tokenIn (h _ rest hrest)

/-- A leaf that is read back as some value settles, whether or not that is the right one. -/
theorem settles_of_readsLeaf {text : List Char} {v w : Value} {m' : Memory}
    (h : sparql.ReadsLeaf room m text w m') (hm' : m'.Sound) : Settles room m text v := by
  have halone := h.token [] (by simp [Delimits])
  rw [List.append_nil] at halone
  exact .read hm' h (alone_of_yields halone)

/-- A word opens like a leaf. -/
theorem IsWord.opens {text : List Char} (h : IsWord [';', '#'] text) : Opens text := by
  obtain ⟨hne, hall, hhead⟩ := h
  cases text with
  | nil => exact absurd rfl hne
  | cons c cs =>
    rw [List.all_cons, Bool.and_eq_true] at hall
    obtain ⟨hblank, hbracket⟩ := isAtomChar_eq_true_iff.mp hall.1
    have hround : c ≠ ')' := (hbracket .round (by decide)).2
    have hstarts := (hhead c rfl).2
    simp only [List.mem_cons, List.not_mem_nil, or_false, not_or] at hstarts
    exact ⟨c, cs, rfl, hblank, by simp [hround, hstarts]⟩

theorem settles_word {text : List Char} (h : IsWord [';', '#'] text) (hm : m.Sound) (v : Value) :
    Settles room m text v :=
  settles_of_yields h.opens (hm.meaning h) (fun _ hrest => (takes_word h m).yields_token hrest)
    fun hne => absurd rfl hne

/-! ### IRIs -/

theorem opens_less (cs : List Char) : Opens ('<' :: cs) :=
  ⟨'<', cs, rfl, by decide, by decide⟩

/-- What an IRI is written as opens like a leaf: a word, a short name, or a text in brackets. -/
theorem opens_iri {i : Iri} (hi : KeepsText [';', '#'] i) (hab : InForce less ab) :
    Opens (i.written ab) := by
  unfold Iri.written
  split
  · next text hlexical =>
    -- The text that it was read from is written again.
    rcases hi text hlexical with htext | ⟨raw, htext, -⟩
    · exact htext.opens
    · rw [htext]
      exact opens_less _
  · cases hprefixed : i.prefixedName? ab.namespaces with
    | some text =>
      obtain ⟨e, he, rest, rfl, hrest, -⟩ := prefixedName?_eq_some hprefixed
      have hname := (hab e he).1
      rw [Option.getD_some]
      by_cases hhead : e.1.toList.head? = some '<'
      · rcases hname.2.2 hhead with hname | hname
        · rw [hname]
          exact opens_less _
        · rw [hname]
          exact opens_less _
      · exact (isWord_prefixed (fun c hc => hc) hname hhead hrest).opens
    | none =>
      rw [Option.getD_none]
      cases hrelative : i.relative? ab.base with
      | some text =>
        obtain ⟨base, -, -, rest, rfl, -, -⟩ := relative?_eq_some hrelative
        exact opens_less _
      | none => exact opens_less _

/-- A value that is equal to an IRI can be a datatype, with the same text. -/
theorem datatypeOf?_of_eq {w : Value} {n : Nat} {i : Iri} (h : w.eq (.term n (.iri i)) = true) :
    ∃ j, datatypeOf? w = some j ∧ j.text = i.text := by
  cases w with
  | term k t =>
    rw [Value.eq] at h
    cases t with
    | iri j => exact ⟨j, rfl, by simpa [Term.eq, Iri.eq] using h⟩
    | literal l => simp [Term.eq] at h
    | blank b => simp [Term.eq] at h
    | var v => simp [Term.eq] at h
  | atom a => simp [Value.eq] at h
  | list items => simp [Value.eq] at h
  | vector items => simp [Value.eq] at h

/-- What an IRI is written as settles, unless its name is an opening bracket. -/
theorem settles_iri {i : Iri} (hi : KeepsText [';', '#'] i) (hab : InForce less ab) (hm : m.Sound)
    (n : Nat) : Settles room m (i.written ab) (.term n (.iri i)) ∨
      less ∧ alone (i.written ab) m = none := by
  rcases takes_iri (fun c hc => hc) hi hab hm with ⟨hless, cs, htext, hclose⟩ | hregular
  · refine .inr ⟨hless, ?_⟩
    rw [htext]
    exact alone_eq_none fun s _ hs =>
      (ensures_tokenIn_unclosed (by decide) (by decide) (by simpa using hclose) _ hs :
        Ensures (tokenIn s.cursor.located) s fun _ _ => False)
  · obtain ⟨w, m', left, hm', htakes, hleft⟩ := hregular
    refine .inl (settles_of_yields (opens_iri hi hab) hm' (fun _ => htakes.yields_token)
      fun hne => ?_)
    -- A token that leaves something cannot be equal to the IRI.
    rw [Bool.eq_false_iff]
    intro heq
    obtain ⟨j, hj, htext⟩ := datatypeOf?_of_eq heq
    exact hleft hne j hj htext

/-! ### Literals -/

/-- A literal that is written bare is a word. -/
theorem isWord_of_isBare {l : Literal} (h : l.isBare = true) :
    IsWord [';', '#'] l.value.toList := by
  obtain ⟨i, datatype, -, -, hvalue⟩ := isBare_cases h
  rcases hvalue with ⟨-, hvalue | hvalue⟩ | hnumeral
  · rw [hvalue]
    exact ⟨by decide, by decide, by simp⟩
  · rw [hvalue]
    exact ⟨by decide, by decide, by simp⟩
  · obtain ⟨hne, -, hchars⟩ := numeralType?_some hnumeral
    have hall : ∀ c ∈ Numeral.numeralChars, lexicon.isAtomChar c = true ∧
        c ∉ ['"', '\'', '<'] ∧ c ∉ [';', '#'] := List.all_iff_forall_prop.mp (by decide)
    refine ⟨hne, ?_, fun c hc => (hall c (hchars c (List.mem_of_head? hc))).2⟩
    rw [List.all_eq_true]
    exact fun c hc => (hall c (hchars c hc)).1

/-- A literal in quotes opens like a leaf. -/
theorem opens_quoted (quote : Quote) (text cs : List Char) :
    Opens (Quoted.written quote text ++ cs) := by
  cases quote
  · exact ⟨'"', _, rfl, by decide, by decide⟩
  · exact ⟨'\'', _, rfl, by decide, by decide⟩

/-- A literal with a datatype is read as far as its datatype is. -/
theorem settles_typed {l : Literal} {i : Iri} (hdatatype : l.datatype = some i)
    (hi : KeepsText [] i) (hab : InForce less ab) (hm : m.Sound) (n : Nat) :
    let text := Quoted.written l.quote l.value.toList ++ '^' :: '^' :: i.written ab
    Settles room m text (.term n (.literal l)) ∨ less ∧ alone text m = none := by
  intro text
  rcases takes_iri (by simp) hi hab hm with ⟨hless, cs, htext, hclose⟩ | hregular
  · refine .inr ⟨hless, alone_eq_none fun s hms hs => ?_⟩
    refine ensures_token_typed (fun allowance s _ hs => ?_) hms hs
    rw [htext] at hs
    refine ensures_here fun p => Ensures.bind (P := fun _ _ => False) ?_ fun _ _ h => h.elim
    exact ensures_tokenIn_unclosed (by decide) (by decide) (by simpa using hclose) allowance hs
  · obtain ⟨w, m', left, hm', htakes, hleft⟩ := hregular
    refine .inl ?_
    have happend (rest : List Char) : text ++ rest =
        Quoted.written l.quote l.value.toList ++ '^' :: '^' :: (i.written ab ++ rest) :=
      List.append_assoc _ _ _
    cases hw : datatypeOf? w with
    | none =>
      -- The token after the two carets is no datatype, so the literal is not read at all.
      refine settles_of_fails (opens_quoted _ _ _) fun rest s hrest hms hs => ?_
      rw [happend] at hs
      refine ensures_token_typed (fun allowance s hms hs => ?_) hms hs
      exact ensures_datatype_none (htakes allowance rest hrest) hw hms hs
    | some j =>
      let got : Literal :=
        { value := String.ofList l.value.toList, quote := l.quote, datatype := some j }
      have hyields (rest : List Char) (hrest : Delimits rest) :
          Yields token m (text ++ rest) (.value (mention (.literal got) m').1)
            (mention (.literal got) m').2 (left ++ rest) := by
        rw [happend]
        exact yields_token_quoted fun allowance =>
          yields_quoted_typed (Lexeme.yields_string l.quote l.value.toList _)
            (yields_datatype (htakes allowance rest hrest) hw)
      refine settles_of_yields (opens_quoted _ _ _) (hm'.mention _) hyields fun hne => ?_
      · have htext := hleft hne j hw
        simp [got, mention, Value.eq, Term.eq, Literal.eq, hdatatype, Iri.eq, htext]

/-- What a literal is written as settles; its datatype may be an IRI that does not. -/
theorem settles_literal {n : Nat} {l : Literal} (hl : IsRead [';', '#'] (.term n (.literal l)))
    (hab : InForce less ab) (hm : m.Sound) :
    Settles room m (l.written ab) (.term n (.literal l)) ∨
      less ∧ alone (l.written ab) m = none := by
  obtain ⟨hone, htag, hdatatype⟩ := hl
  unfold Literal.written
  split
  · next hbare => exact .inl (settles_word (isWord_of_isBare hbare) hm _)
  · cases hlanguage : l.language with
    | some tag =>
      refine .inl (settles_of_readsLeaf (readsLeaf_tagged _ _ (htag tag hlanguage) room m) ?_)
      exact hm.mention _
    | none =>
      cases hi : l.datatype with
      | some i => exact settles_typed hi (hdatatype i hi) hab hm n
      | none =>
        rw [List.append_nil]
        exact .inl (settles_of_readsLeaf (readsLeaf_quoted _ _ room m) (hm.mention _))

/-- What a literal is written as opens like a leaf. -/
theorem opens_literal {l : Literal} : Opens (l.written ab) := by
  unfold Literal.written
  split
  · next hbare => exact (isWord_of_isBare hbare).opens
  · exact opens_quoted _ _ _

/-! ### Symbols, blank nodes and variables -/

/-- A symbol that needs no bars and does not begin with an angle bracket is a word. -/
theorem isWord_symbol {name : String} (hbars : Symbol.needsBars .sparql name.toList = false)
    (hless : name.toList.head? ≠ some '<') : IsWord [';', '#'] name.toList := by
  have hbare := Symbol.needsBars_eq_false_iff.mp hbars
  refine ⟨hbare.ne_nil, hbare.all_isAtomChar lexicon.brackets, fun c hc => ?_⟩
  have hfirst := hbare.first c hc
  have hne : c ≠ '<' := by
    rintro rfl
    exact hless hc
  simp_all

/-- What a blank node is written as is a word. -/
theorem isWord_blank {id : String} (hid : id.toList.all lexicon.isAtomChar = true) :
    IsWord [';', '#'] ('_' :: ':' :: id.toList) := by
  have hfirst : lexicon.isAtomChar '_' = true ∧ lexicon.isAtomChar ':' = true := by decide
  refine ⟨by simp, ?_, by simp⟩
  rw [List.all_cons, List.all_cons, hfirst.1, hfirst.2, hid]
  rfl

/-- What a variable is written as is a word. -/
theorem isWord_var {v : Variable} (hname : v.name.toList.all lexicon.isAtomChar = true) :
    IsWord [';', '#'] (v.sigil ++ v.name.toList) := by
  have hfirst : lexicon.isAtomChar '?' = true ∧ lexicon.isAtomChar '$' = true := by decide
  obtain ⟨name, distinguished, existential⟩ := v
  cases distinguished <;> cases existential
  all_goals exact ⟨by simp [Variable.sigil], by simp_all [Variable.sigil, List.replicate],
    by simp [Variable.sigil, List.replicate]⟩

/-- A leaf that was read and needs no bars. -/
def IsPlain (v : Value) : Prop :=
  IsRead [';', '#'] v ∧ ∀ a ∈ v.atoms, ∀ name, a = .symbol name →
    Symbol.needsBars .sparql name.toList = false

theorem IsPlain.symbol {name : String} (h : IsPlain (.symbol name)) :
    Symbol.needsBars .sparql name.toList = false ∧
      (name.toList.head? = some '<' → name = "<" ∨ name = "<=") :=
  ⟨h.2 _ (by simp [Value.atoms]) name rfl, h.1⟩

/-- What a symbol is written as settles. -/
theorem settles_symbol {name : String} (h : IsPlain (.symbol name)) (hm : m.Sound) :
    Settles room m (Symbol.written .sparql name.toList) (.symbol name) := by
  obtain ⟨hbars, hless⟩ := h.symbol
  rw [Symbol.written, hbars]
  by_cases hhead : name.toList.head? = some '<'
  · rcases hless hhead with rfl | rfl
    · exact settles_of_yields (opens_less _) hm
        (fun _ => (takes_less m (by simp)).yields_token) fun hne => absurd rfl hne
    · exact settles_of_yields (opens_less _) hm
        (fun _ => (takes_lessEqual m []).yields_token) fun hne => absurd rfl hne
  · exact settles_word (isWord_symbol hbars hhead) hm _

/-- What a symbol is written as opens like a leaf. -/
theorem opens_symbol {name : String} (h : IsPlain (.symbol name)) :
    Opens (Symbol.written .sparql name.toList) := by
  obtain ⟨hbars, hless⟩ := h.symbol
  rw [Symbol.written, hbars]
  by_cases hhead : name.toList.head? = some '<'
  · rcases hless hhead with rfl | rfl <;> exact opens_less _
  · exact (isWord_symbol hbars hhead).opens

/-- **Every written leaf settles**, unless it is in a namespace called `<`. -/
theorem settles_leaf {v : Value} (hv : IsPlain v) (hab : InForce less ab) (hm : m.Sound) :
    Settles room m (v.compact .sparql ab) v ∨ less ∧ alone (v.compact .sparql ab) m = none := by
  cases v with
  | list items => exact hv.1.elim
  | vector items => exact hv.1.elim
  | atom a =>
    cases a with
    | nil =>
      have hnil : IsWord [';', '#'] ['n', 'i', 'l'] := ⟨by decide, by decide, by simp⟩
      exact .inl (settles_word hnil hm _)
    | symbol name => exact .inl (settles_symbol hv hm)
    | bool b => exact hv.1.elim
    | char c => exact hv.1.elim
    | string text quote => exact hv.1.elim
    | number n => exact hv.1.elim
  | term n t =>
    rw [Value.compact]
    cases t with
    | iri i => exact settles_iri hv.1 hab hm n
    | literal l => exact settles_literal hv.1 hab hm
    | blank b => exact .inl (settles_word (isWord_blank hv.1) hm _)
    | var v => exact .inl (settles_word (isWord_var hv.1) hm _)

/-- So what any leaf is written as opens like one. -/
theorem opens_leaf {v : Value} (hv : IsPlain v) (hab : InForce less ab) :
    Opens (v.compact .sparql ab) := by
  cases v with
  | list items => exact hv.1.elim
  | vector items => exact hv.1.elim
  | atom a =>
    cases a with
    | nil => exact ⟨'n', ['i', 'l'], rfl, by decide, by decide⟩
    | symbol name => exact opens_symbol hv
    | bool b => exact hv.1.elim
    | char c => exact hv.1.elim
    | string text quote => exact hv.1.elim
    | number n => exact hv.1.elim
  | term n t =>
    rw [Value.compact]
    cases t with
    | iri i => exact opens_iri hv.1 hab
    | literal l => exact opens_literal
    | blank b => exact (isWord_blank hv.1).opens
    | var v => exact (isWord_var hv.1).opens

end Leaves

end SExpr.Dialect.Sparql
