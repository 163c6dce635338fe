import SExpr.Proofs.Sparql.Effect
import SExpr.Proofs.Sparql.Terms

/-!
# The identity of terms

A session remembers the blank nodes and variables that have been named in it, so that every mention
of a name is the same term. All other terms get a handle that no term has had before.

* **`Turn`**: what a token does to the terms that are remembered.
* **`Memory.Fair`**: different names stand for different terms.
* **`Memory.Grows`**: what is remembered stays, and what is new has a new handle.
* **`Mentioned`**: which term is read, by the word that mentions it.
* **`terms_keep_identity`**: terms are the same if they have the same name, over a whole session.
-/

namespace SExpr.Dialect.Sparql

open Text

/-! ## Names -/

/-- What a session knows a blank node or a variable by. The sigil of a variable does not matter. -/
inductive Name where
  | blank (id : String)
  | var (name : String)
  deriving DecidableEq, Repr

/-- The name of a blank node or a variable, if it is not empty. -/
def nameOf? : Term → Option Name
  | .blank b => if b.id.isEmpty then none else some (.blank b.id)
  | .var v => if v.name.isEmpty then none else some (.var v.name)
  | _ => none

/-- The blank node or the variable that a literal mentions. Its name is empty if a new one is
meant. -/
def mentioned? (text : List Char) : Option Term :=
  match after? ['_', ':'] text with
  | some id => some (.blank { id := String.ofList id })
  | none => (queryVar? text).map .var

/-- The name in a literal. -/
def name? (text : List Char) : Option Name := (mentioned? text).bind nameOf?

theorem name?_of_none {text : List Char} (h : mentioned? text = none) : name? text = none := by
  rw [name?, h, Option.bind_none]

theorem name?_of_mentioned {text : List Char} {t : Term} (h : mentioned? text = some t) :
    name? text = nameOf? t := by
  rw [name?, h, Option.bind_some]

/-- The term that is remembered for a name. -/
def Memory.find? (m : Memory) : Name → Option Value
  | .blank id => m.blanks.lookup id
  | .var name => m.vars.lookup name

def Memory.remember (m : Memory) (v : Value) : Name → Memory
  | .blank id => { m with blanks := (id, v) :: m.blanks }
  | .var name => { m with vars := (name, v) :: m.vars }

/-- A name that is remembered stands for its term, and the other names stand for what they did. -/
theorem Memory.find?_remember (m : Memory) (v : Value) (n n' : Name) :
    (m.remember v n).find? n' = if n' = n then some v else m.find? n' := by
  cases n <;> cases n' <;> simp only [remember, find?, List.lookup_cons, reduceCtorEq, if_false]
  all_goals
    split
    · next heq => rw [if_pos (by rw [eq_of_beq heq])]
    · next hne => rw [if_neg fun h => by injection h with h; simp [h] at hne]

/-- The term stands for a blank node or a variable. -/
def isNode : Term → Bool
  | .blank _ => true
  | .var _ => true
  | _ => false

/-- What a literal mentions is a blank node or a variable. -/
theorem isNode_of_mentioned {text : List Char} {t : Term} (h : mentioned? text = some t) :
    isNode t = true := by
  unfold mentioned? at h
  split at h
  · cases h
    rfl
  · obtain ⟨v, -, rfl⟩ := Option.map_eq_some_iff.mp h
    rfl

/-- Only blank nodes and variables have names. -/
theorem isNode_of_nameOf {t : Term} {n : Name} (h : nameOf? t = some n) : isNode t = true := by
  cases t with
  | blank b => rfl
  | var v => rfl
  | iri i => cases h
  | literal l => cases h

/-! ## Looking up terms -/

/-- The term that a blank node or a variable is in the session. -/
def lookUp : Term → Remembering Value
  | .blank b => blankNode b.id
  | .var v => namedVariable v
  | t => mention t

/-- The blank node or the variable, under the label of the given number. -/
def labelled : Term → Nat → Term
  | .blank _, k => .blank { id := s!"b{k}" }
  | .var v, k => .var { v with name := s!"_g{k}" }
  | t, _ => t

/-- The number of the next label. -/
def Memory.nextLabel (m : Memory) : Term → Nat
  | .blank _ => freeNumberFor "b" m.blanks m.fresh
  | .var _ => freeNumberFor "_g" m.vars m.fresh
  | _ => m.fresh

/-- A number that is free is not below the one that is tried first. -/
theorem le_freeNumber (taken : Nat → Bool) (rounds n : Nat) : n ≤ freeNumber taken rounds n := by
  induction rounds generalizing n with
  | zero => exact Nat.le_refl n
  | succ rounds ih =>
    unfold freeNumber
    split
    · exact Nat.le_of_succ_le (ih (n + 1))
    · exact Nat.le_refl n

/-- The number of the next label is not below those counted so far. -/
theorem Memory.le_nextLabel (m : Memory) (t : Term) : m.fresh ≤ m.nextLabel t := by
  cases t with
  | iri i => exact Nat.le_refl _
  | literal l => exact Nat.le_refl _
  | blank b => exact le_freeNumber _ _ _
  | var v => exact le_freeNumber _ _ _

/-- How a term is looked up: it is known, or it is new, or it has no name and gets a label. -/
inductive LooksUp (m : Memory) (t : Term) : Value → Memory → Prop
  | known {n : Name} {v : Value} (name : nameOf? t = some n) (find : m.find? n = some v) :
      LooksUp m t v m
  | new {n : Name} (name : nameOf? t = some n) (find : m.find? n = none) :
      LooksUp m t (.term m.handles t) ((mention t m).2.remember (.term m.handles t) n)
  | anonymous (name : nameOf? t = none) :
      LooksUp m t (.term m.handles (labelled t (m.nextLabel t)))
        { m with fresh := m.nextLabel t + 1, handles := m.handles + 1 }

/-- **Looking up** finds what is known, or remembers what is new, or makes a label. -/
theorem looksUp_lookUp {t : Term} (ht : isNode t = true) (m : Memory) :
    LooksUp m t (lookUp t m).1 (lookUp t m).2 := by
  cases t with
  | iri i => cases ht
  | literal l => cases ht
  | blank b =>
    show LooksUp m (.blank b) (blankNode b.id m).1 (blankNode b.id m).2
    unfold blankNode
    split
    · next hempty => exact .anonymous (if_pos hempty)
    · next hne =>
      have hname : nameOf? (.blank b) = some (.blank b.id) := if_neg hne
      cases hfind : m.blanks.lookup b.id with
      | some v => exact .known hname hfind
      | none => exact .new hname hfind
  | var v =>
    show LooksUp m (.var v) (namedVariable v m).1 (namedVariable v m).2
    unfold namedVariable
    split
    · next hempty => exact .anonymous (if_pos hempty)
    · next hne =>
      have hname : nameOf? (.var v) = some (.var v.name) := if_neg hne
      cases hfind : m.vars.lookup v.name with
      | some u => exact .known hname hfind
      | none => exact .new hname hfind

/-! ## What is remembered -/

/-- Every name that is remembered stands for a term of that name, and different names stand for
different terms. -/
structure Memory.Fair (m : Memory) : Prop where
  term : ∀ n v, m.find? n = some v → ∃ h t, v = .term h t ∧ h < m.handles ∧ nameOf? t = some n
  distinct : ∀ n n' h t t', m.find? n = some (.term h t) → m.find? n' = some (.term h t') → n = n'

/-- What is remembered stays. What is new has a new handle, and the numbers of labels go up. -/
structure Memory.Grows (m m' : Memory) : Prop where
  handles : m.handles ≤ m'.handles
  fresh : m.fresh ≤ m'.fresh
  keeps : ∀ n v, m.find? n = some v → m'.find? n = some v
  adds : ∀ n h t, m'.find? n = some (.term h t) → m.find? n = some (.term h t) ∨ m.handles ≤ h

namespace Memory

variable {m m' m'' : Memory}

theorem Grows.refl (m : Memory) : m.Grows m :=
  ⟨Nat.le_refl _, Nat.le_refl _, fun _ _ h => h, fun _ _ _ h => .inl h⟩

/-- Growth adds up. -/
theorem Grows.trans (h : m.Grows m') (h' : m'.Grows m'') : m.Grows m'' where
  handles := Nat.le_trans h.handles h'.handles
  fresh := Nat.le_trans h.fresh h'.fresh
  keeps n v hv := h'.keeps n v (h.keeps n v hv)
  adds n k t hv := by
    rcases h'.adds n k t hv with hv | hk
    · exact h.adds n k t hv
    · exact .inr (Nat.le_trans h.handles hk)

/-- Nothing is remembered anew. -/
theorem Grows.of_find (hfind : ∀ n, m'.find? n = m.find? n) (hfresh : m.fresh ≤ m'.fresh)
    (hhandles : m.handles ≤ m'.handles) : m.Grows m' where
  handles := hhandles
  fresh := hfresh
  keeps n v hv := by rw [hfind, hv]
  adds n k t hv := .inl (by rw [← hfind, hv])

/-- A memory in which the same terms are remembered is as fair. -/
theorem Fair.of_find (h : m.Fair) (hfind : ∀ n, m'.find? n = m.find? n)
    (hhandles : m.handles ≤ m'.handles) : m'.Fair where
  term n v hv := by
    obtain ⟨k, t, rfl, hk, ht⟩ := h.term n v (by rw [← hfind, hv])
    exact ⟨k, t, rfl, Nat.lt_of_lt_of_le hk hhandles, ht⟩
  distinct n n' k t t' hv hv' := by
    rw [hfind] at hv hv'
    exact h.distinct n n' k t t' hv hv'

end Memory

namespace LooksUp

variable {m m' : Memory} {t : Term} {v : Value}

theorem handles_remember (m : Memory) (v : Value) (n : Name) :
    (m.remember v n).handles = m.handles := by
  cases n <;> rfl

theorem fresh_remember (m : Memory) (v : Value) (n : Name) :
    (m.remember v n).fresh = m.fresh := by
  cases n <;> rfl

/-- To look up a term makes the memory grow. -/
theorem grows (h : LooksUp m t v m') : m.Grows m' := by
  cases h with
  | known name find => exact .refl m
  | @new n name find =>
    constructor
    · rw [handles_remember]
      exact Nat.le_succ _
    · rw [fresh_remember]
      exact Nat.le_refl _
    · intro n' w hw
      have hne : n' ≠ n := by
        rintro rfl
        rw [find] at hw
        cases hw
      rw [Memory.find?_remember, if_neg hne]
      exact hw
    · intro n' k u hu
      rw [Memory.find?_remember] at hu
      split at hu
      · cases hu
        exact .inr (Nat.le_refl _)
      · exact .inl hu
  | anonymous name =>
    exact .of_find (fun n => by cases n <;> rfl) (Nat.le_succ_of_le (m.le_nextLabel t))
      (Nat.le_succ _)

/-- To look up a term keeps the memory fair. -/
theorem fair (h : LooksUp m t v m') (hm : m.Fair) : m'.Fair := by
  cases h with
  | known name find => exact hm
  | @new n name find =>
    -- The new handle is that of no term remembered before.
    have hnew : ∀ n' t', m.find? n' ≠ some (.term m.handles t') := by
      intro n' t' h
      obtain ⟨k, u, heq, hk, -⟩ := hm.term n' _ h
      cases heq
      exact Nat.lt_irrefl _ hk
    constructor
    · intro n' w hw
      rw [Memory.find?_remember] at hw
      rw [handles_remember]
      split at hw
      · next heq =>
        cases hw
        exact ⟨_, t, rfl, Nat.lt_succ_self _, heq ▸ name⟩
      · obtain ⟨k, u, rfl, hk, hu⟩ := hm.term n' w hw
        exact ⟨k, u, rfl, Nat.lt_succ_of_lt hk, hu⟩
    · intro n₁ n₂ k t₁ t₂ h₁ h₂
      rw [Memory.find?_remember] at h₁ h₂
      split at h₁
      · next heq₁ =>
        split at h₂
        · next heq₂ => rw [heq₁, heq₂]
        · cases h₁
          exact absurd h₂ (hnew _ _)
      · split at h₂
        · cases h₂
          exact absurd h₁ (hnew _ _)
        · exact hm.distinct n₁ n₂ k t₁ t₂ h₁ h₂
  | anonymous name => exact hm.of_find (fun n => by cases n <;> rfl) (Nat.le_succ _)

/-- Only the name of the term is remembered anew. -/
theorem find?_of_ne (h : LooksUp m t v m') {n : Name} (hn : nameOf? t ≠ some n) :
    m'.find? n = m.find? n := by
  cases h with
  | known name find => rfl
  | @new n' name find =>
    have hne : n ≠ n' := by
      rintro rfl
      exact hn name
    rw [Memory.find?_remember, if_neg hne]
    cases n <;> rfl
  | anonymous name => cases n <;> rfl

/-- After a name has been looked up, it stands for the term that was found. -/
theorem find?_eq (h : LooksUp m t v m') {n : Name} (hn : nameOf? t = some n) :
    m'.find? n = some v := by
  cases h with
  | known name find =>
    rw [hn] at name
    cases name
    exact find
  | new name find =>
    rw [hn] at name
    cases name
    rw [Memory.find?_remember, if_pos rfl]
  | anonymous name =>
    rw [hn] at name
    cases name

/-- A name that was not remembered stands for the term as it is mentioned. -/
theorem eq_mention (h : LooksUp m t v m') {n : Name} (hn : nameOf? t = some n)
    (hfind : m.find? n = none) : v = .term m.handles t := by
  cases h with
  | known name find =>
    rw [hn] at name
    cases name
    rw [hfind] at find
    cases find
  | new name find => rfl
  | anonymous name =>
    rw [hn] at name
    cases name

/-- Without a name, the term is new. -/
theorem eq_labelled (h : LooksUp m t v m') (hn : nameOf? t = none) :
    v = .term m.handles (labelled t (m.nextLabel t)) ∧
      m' = { m with fresh := m.nextLabel t + 1, handles := m.handles + 1 } := by
  cases h with
  | known name find =>
    rw [hn] at name
    cases name
  | new name find =>
    rw [hn] at name
    cases name
  | anonymous name => exact ⟨rfl, rfl⟩

/-- What is found is a blank node or a variable. -/
theorem exists_term (h : LooksUp m t v m') (hm : m.Fair) (ht : isNode t = true) :
    ∃ k u, v = .term k u ∧ isNode u = true := by
  cases h with
  | known name find =>
    obtain ⟨k, u, rfl, -, hu⟩ := hm.term _ _ find
    exact ⟨k, u, rfl, isNode_of_nameOf hu⟩
  | new name find => exact ⟨_, t, rfl, ht⟩
  | anonymous name =>
    refine ⟨_, _, rfl, ?_⟩
    cases t <;> exact ht

end LooksUp

/-! ## Tokens -/

/-- What a token does to the terms that are remembered, by the word that it gives a meaning to, and
which value it is then. -/
inductive Turn (m : Memory) (text : List Char) (v? : Option Value) (m' : Memory) : Prop
  /-- No blank node or variable is mentioned. -/
  | other (unnamed : mentioned? text = none) (find : ∀ n, m'.find? n = m.find? n)
      (fresh : m'.fresh = m.fresh) (handles : m.handles ≤ m'.handles)
      (value : ∀ v ∈ v?, (∃ a, v = .atom a) ∨
        ∃ h t, v = .term h t ∧ m.handles ≤ h ∧ h < m'.handles ∧ isNode t = false)
  | mentions {t : Term} {v : Value} (mentioned : mentioned? text = some t)
      (found : LooksUp m t v m') (value : ∀ w ∈ v?, w = v)

/-- The meaning of a word that mentions a term is what the term is in the session. -/
theorem meaning_of_mentioned {text : List Char} {t : Term} (h : mentioned? text = some t)
    (m : Memory) : meaning text m = classify (lookUp t m).1 (lookUp t m).2 := by
  unfold mentioned? at h
  split at h
  · next id hid =>
    cases h
    obtain rfl := eq_append_of_after? hid
    show classify (atom ('_' :: ':' :: id) m).1 (atom ('_' :: ':' :: id) m).2 = _
    rw [atom_blank]
    rfl
  · obtain ⟨v, hv, rfl⟩ := Option.map_eq_some_iff.mp h
    show classify (atom text m).1 (atom text m).2 = _
    rw [atom_var hv]
    rfl

/-- A word that mentions no blank node and no variable is a symbol, before which the next IRI may
have become the base, or an IRI, a literal or `nil`. -/
theorem meaning_cases {text : List Char} (htext : mentioned? text = none) (m : Memory) :
    (∃ base, meaning text m = symbol text { m with awaitsBase := base }) ∨
      (∃ t, isNode t = false ∧ meaning text m = mention t m) ∨ meaning text m = (.nil, m) := by
  have hblank : after? ['_', ':'] text = none := by
    unfold mentioned? at htext
    split at htext
    · cases htext
    · assumption
  have hvar : queryVar? text = none := by
    rw [mentioned?, hblank] at htext
    exact Option.map_eq_none_iff.mp htext
  have hsymbol (m' : Memory) :
      classify (.symbol (String.ofList text)) m' = symbol text m' := by
    rw [← String.toList_ofList (l := text), String.ofList_toList]
    rfl
  rw [meaning]
  -- The branches are those of what a literal can be.
  generalize hr : atom text m = r
  unfold atom at hr
  simp only [hblank, hvar] at hr
  split_ifs at hr <;> subst hr
  · exact .inl ⟨m.awaitsBase, hsymbol m⟩
  · exact .inr (.inl ⟨_, rfl, rfl⟩)
  · exact .inl ⟨true, hsymbol { m with awaitsBase := true }⟩
  · exact .inr (.inr rfl)
  · exact .inr (.inl ⟨_, rfl, rfl⟩)
  · exact .inr (.inl ⟨_, rfl, rfl⟩)
  · exact .inr (.inl ⟨_, rfl, rfl⟩)
  · exact .inr (.inl ⟨_, rfl, rfl⟩)
  · exact .inr (.inl ⟨_, rfl, rfl⟩)
  · exact .inl ⟨m.awaitsBase, hsymbol m⟩

/-- The memory has the same terms remembered. -/
def Memory.SameTerms (m m' : Memory) : Prop :=
  m'.blanks = m.blanks ∧ m'.vars = m.vars ∧ m'.fresh = m.fresh ∧ m'.handles = m.handles

namespace Turn

variable {m m' : Memory} {text : List Char} {v? : Option Value}

/-- A token that mentions nothing and leaves the terms as they are. -/
theorem of_sameTerms (htext : mentioned? text = none) (hm : m.SameTerms m')
    (hv : ∀ v ∈ v?, ∃ a, v = .atom a) : Turn m text v? m' := by
  obtain ⟨hblanks, hvars, hfresh, hhandles⟩ := hm
  refine .other htext (fun n => ?_) hfresh (Nat.le_of_eq hhandles.symm) fun v h => .inl (hv v h)
  cases n with
  | blank id => rw [Memory.find?, Memory.find?, hblanks]
  | var name => rw [Memory.find?, Memory.find?, hvars]

/-- A mention after others of terms that have no name. -/
theorem mention {w? : Option Value} (h : Turn m text w? m') (htext : mentioned? text = none)
    {t : Term} (ht : isNode t = false) :
    Turn m text (some (mention t m').1) (Sparql.mention t m').2 := by
  cases h with
  | other _ find fresh handles _ =>
    refine .other htext (fun n => ?_) fresh (Nat.le_succ_of_le handles) ?_
    · rw [← find]
      cases n <;> rfl
    · rintro v ⟨⟩
      exact .inr ⟨m'.handles, t, rfl, handles, Nat.lt_succ_self _, ht⟩
  | mentions mentioned _ _ =>
    rw [htext] at mentioned
    cases mentioned

/-- A token that is a term other than a blank node or a variable. -/
theorem of_mention (htext : mentioned? text = none) {t : Term} (ht : isNode t = false) :
    Turn m text (some (Sparql.mention t m).1) (Sparql.mention t m).2 := by
  have hstart : Turn m text none m :=
    .of_sameTerms htext ⟨rfl, rfl, rfl, rfl⟩ fun _ h => nomatch h
  exact hstart.mention htext ht

/-- A word that is a symbol, or an IRI under a prefix. -/
theorem of_symbol (htext : mentioned? text = none) (hm : m.SameTerms m') (cs : List Char) :
    Turn m text (some (symbol cs m').1) (symbol cs m').2 := by
  have hatom (name : String) : ∀ v ∈ some (Value.symbol name), ∃ a, v = .atom a := by
    rintro v ⟨⟩
    exact ⟨_, rfl⟩
  rcases symbol_cases cs m' with ⟨-, -, h⟩ | ⟨-, h⟩ | h | ⟨i, h⟩
  · rw [h]
    exact .of_sameTerms htext hm (hatom _)
  · rw [h]
    exact .of_sameTerms htext hm (hatom _)
  · rw [h]
    exact .of_sameTerms htext hm (hatom _)
  · rw [h]
    have hstart : Turn m text none m' := .of_sameTerms htext hm fun _ h => nomatch h
    exact hstart.mention htext rfl

/-- An IRI in angle brackets. -/
theorem of_iri (htext : mentioned? text = none) (raw : List Char) :
    Turn m text (some (iri raw m).1) (iri raw m).2 := by
  obtain ⟨i, ab, name, base, hi, -⟩ := iri_eq_mention raw m
  rw [hi]
  have hstart : Turn m text none
      { m with abbreviations := ab, awaitedName := name, awaitsBase := base } :=
    .of_sameTerms htext ⟨rfl, rfl, rfl, rfl⟩ fun _ h => nomatch h
  exact hstart.mention htext rfl

/-- A token that is a word in which nothing is mentioned. -/
theorem of_meaning (htext : mentioned? text = none) (m : Memory) :
    Turn m text (some (meaning text m).1) (meaning text m).2 := by
  rcases meaning_cases htext m with ⟨base, h⟩ | ⟨t, ht, h⟩ | h
  · rw [h]
    have hm : m.SameTerms { m with awaitsBase := base } := ⟨rfl, rfl, rfl, rfl⟩
    exact .of_symbol htext hm text
  · rw [h]
    exact .of_mention htext ht
  · rw [h]
    refine .of_sameTerms htext ⟨rfl, rfl, rfl, rfl⟩ ?_
    rintro v ⟨⟩
    exact ⟨.nil, rfl⟩

end Turn

/-- The value that a token is, if it is one. -/
def valueOf? : Token → Option Value
  | .value v => some v
  | _ => none

/-- **A token** looks up the blank node or the variable that its word mentions, and remembers
nothing else. -/
theorem turn_of_effect {m m' : Memory} {text : List Char} {token? : Option Token} (hm : m.Fair)
    (h : Effect m text token? m') : Turn m text (token?.bind valueOf?) m' := by
  have hempty : mentioned? [] = none := rfl
  induction h with
  | failed => exact .of_sameTerms hempty ⟨rfl, rfl, rfl, rfl⟩ fun _ h => nomatch h
  | @bracket token plain =>
    have hvalue : valueOf? token = none := by
      cases token with
      | value v => exact absurd rfl (plain v)
      | ended => rfl
      | opener b => rfl
      | closer b => rfl
    have hseen : m.SameTerms (m.seen token) := by
      cases token <;> exact ⟨rfl, rfl, rfl, rfl⟩
    refine .of_sameTerms hempty hseen fun v hv => ?_
    rw [Option.bind_some, hvalue] at hv
    cases hv
  | operator name =>
    refine .of_sameTerms hempty ⟨rfl, rfl, rfl, rfl⟩ ?_
    rintro v ⟨⟩
    exact ⟨_, rfl⟩
  | iri raw => exact .of_iri hempty raw
  | literal l => exact .of_mention hempty rfl
  | @word text ne_nil =>
    cases htext : mentioned? text with
    | none => exact .of_meaning htext m
    | some t =>
      have hfound := looksUp_lookUp (isNode_of_mentioned htext) m
      obtain ⟨h, u, hu, -⟩ := hfound.exists_term hm (isNode_of_mentioned htext)
      have hmeaning : meaning text m = lookUp t m := by
        rw [meaning_of_mentioned htext]
        apply Prod.ext
        · rw [hu]
          rfl
        · rw [hu]
          rfl
      rw [hmeaning]
      refine .mentions htext hfound ?_
      rintro v ⟨⟩
      rfl
  | @typed text v m₁ datatype i eq l ih =>
    cases ih with
    | other unnamed find fresh handles value =>
      exact Turn.mention (.other unnamed find fresh handles value) unnamed rfl
    | mentions mentioned found value =>
      -- A blank node or a variable is no datatype.
      obtain ⟨h, u, hu, hnode⟩ := found.exists_term hm (isNode_of_mentioned mentioned)
      rw [value v rfl, hu] at eq
      cases u with
      | blank b => cases eq
      | var w => cases eq
      | iri i => cases hnode
      | literal l => cases hnode
  | untyped other eq ih =>
    cases ih with
    | other unnamed find fresh handles value =>
      exact .other unnamed find fresh handles fun _ h => nomatch h
    | mentions mentioned found value => exact .mentions mentioned found fun _ h => nomatch h

namespace Turn

variable {m m' : Memory} {text : List Char} {v? : Option Value}

theorem grows (h : Turn m text v? m') : m.Grows m' := by
  cases h with
  | other _ find fresh handles _ => exact .of_find find (Nat.le_of_eq fresh.symm) handles
  | mentions _ found _ => exact found.grows

theorem fair (h : Turn m text v? m') (hm : m.Fair) : m'.Fair := by
  cases h with
  | other _ find fresh handles _ => exact hm.of_find find handles
  | mentions _ found _ => exact found.fair hm

/-- Only the name in the word is remembered anew. -/
theorem find?_of_ne (h : Turn m text v? m') {n : Name} (hn : name? text ≠ some n) :
    m'.find? n = m.find? n := by
  cases h with
  | other _ find _ _ _ => exact find n
  | mentions mentioned found _ =>
    apply found.find?_of_ne
    rw [← name?_of_mentioned mentioned]
    exact hn

end Turn

/-! ## Runs -/

/-- The term that is read where a token is asked for. -/
def termAt? (a : Session Memory) : Option Value :=
  match sparql.tokenAt? a with
  | some (.value (.term h t)) => some (.term h t)
  | _ => none

theorem turn_at {a : Session Memory} (hm : a.memory.Fair) :
    Turn a.memory (spelled a) ((sparql.tokenAt? a).bind valueOf?) (sparql.memoryAt a) :=
  turn_of_effect hm (token_effect a)

/-- A term that is read is the token that is read. -/
theorem tokenAt?_of_termAt? {a : Session Memory} {v : Value} (hv : termAt? a = some v) :
    ∃ h t, v = .term h t ∧ sparql.tokenAt? a = some (.value (.term h t)) := by
  unfold termAt? at hv
  split at hv
  · next h t htoken =>
    cases hv
    exact ⟨h, t, rfl, htoken⟩
  · cases hv

/-- The value that a token is, is an atom or a term. -/
theorem value_at {a : Session Memory} (hm : a.memory.Fair) {v : Value}
    (h : sparql.tokenAt? a = some (.value v)) : (∃ a, v = .atom a) ∨ ∃ k t, v = .term k t := by
  have hturn := turn_at hm
  rw [h] at hturn
  cases hturn with
  | other _ _ _ _ value =>
    rcases value v rfl with hatom | ⟨k, t, rfl, -⟩
    · exact .inl hatom
    · exact .inr ⟨k, t, rfl⟩
  | mentions mentioned found value =>
    obtain ⟨k, t, hw, -⟩ := found.exists_term hm (isNode_of_mentioned mentioned)
    exact .inr ⟨k, t, (value v rfl).trans hw⟩

/-- The terms in a token are the one that it is, or none. -/
theorem terms_of_tokenAt? {a : Session Memory} (hm : a.memory.Fair) {token : Token}
    (h : sparql.tokenAt? a = some token) : token.terms = (termAt? a).toList := by
  unfold termAt?
  rw [h]
  cases token with
  | ended => rfl
  | opener b => rfl
  | closer b => rfl
  | value v =>
    rcases value_at hm h with ⟨a, rfl⟩ | ⟨k, t, rfl⟩
    · rfl
    · rfl

/-- What the term is that is read where a token is asked for: it is an IRI or a literal, it is
remembered for its name, or it has no name and a label instead. -/
inductive Mentioned (a : Session Memory) : Value → Prop
  | plain {k : Nat} {t : Term} (word : mentioned? (spelled a) = none) (kind : isNode t = false)
      (new : a.memory.handles ≤ k) (kept : k < (sparql.memoryAt a).handles) :
      Mentioned a (.term k t)
  | named {k : Nat} {t : Term} {n : Name} (name : name? (spelled a) = some n)
      (label : nameOf? t = some n) (find : (sparql.memoryAt a).find? n = some (.term k t)) :
      Mentioned a (.term k t)
  | anonymous {u : Term} (word : mentioned? (spelled a) = some u) (unnamed : nameOf? u = none)
      (memory : sparql.memoryAt a =
        { a.memory with fresh := a.memory.nextLabel u + 1, handles := a.memory.handles + 1 }) :
      Mentioned a (.term a.memory.handles (labelled u (a.memory.nextLabel u)))

/-- **Every term that is read** is mentioned. -/
theorem mentioned_at {a : Session Memory} (hm : a.memory.Fair) {v : Value}
    (hv : termAt? a = some v) : Mentioned a v := by
  obtain ⟨k, t, rfl, htoken⟩ := tokenAt?_of_termAt? hv
  have hturn := turn_at hm
  rw [htoken] at hturn
  have hfair := hturn.fair hm
  cases hturn with
  | other unnamed _ _ _ value =>
    rcases value _ rfl with ⟨b, hb⟩ | ⟨k', t', heq, hle, hlt, hplain⟩
    · cases hb
    · cases heq
      exact .plain unnamed hplain hle hlt
  | @mentions u w mentioned found value =>
    obtain rfl := value _ rfl
    cases hu : nameOf? u with
    | some n =>
      have hfind := found.find?_eq hu
      obtain ⟨k', t', heq, -, hlabel⟩ := hfair.term n _ hfind
      cases heq
      exact .named ((name?_of_mentioned mentioned).trans hu) hlabel hfind
    | none =>
      obtain ⟨heq, hmemory⟩ := found.eq_labelled hu
      cases heq
      exact .anonymous mentioned hu hmemory

/-- A term is the one remembered for the name in its word, or it is new and is not remembered. -/
theorem term_at {a : Session Memory} (hm : a.memory.Fair) {v : Value} (hv : termAt? a = some v) :
    ∃ k t, v = .term k t ∧ k < (sparql.memoryAt a).handles ∧
      ((∃ n, name? (spelled a) = some n ∧ (sparql.memoryAt a).find? n = some v) ∨
        name? (spelled a) = none ∧ a.memory.handles ≤ k ∧
          ∀ n t', (sparql.memoryAt a).find? n ≠ some (.term k t')) := by
  have hturn := turn_at hm
  -- What is remembered has a handle from before.
  have hnew {k : Nat} (hname : name? (spelled a) = none) (hk : a.memory.handles ≤ k) :
      ∀ n t', (sparql.memoryAt a).find? n ≠ some (.term k t') := by
    intro n t' hfind
    rw [hturn.find?_of_ne (by rw [hname]; exact fun h => nomatch h)] at hfind
    obtain ⟨k', u, heq, hlt, -⟩ := hm.term n _ hfind
    cases heq
    omega
  cases mentioned_at hm hv with
  | @plain k t word _ hle hlt =>
    have hname := name?_of_none word
    exact ⟨k, t, rfl, hlt, .inr ⟨hname, hle, hnew hname hle⟩⟩
  | @named k t n hname _ hfind =>
    obtain ⟨k', t', heq, hlt, -⟩ := (hturn.fair hm).term n _ hfind
    cases heq
    exact ⟨k, t, rfl, hlt, .inl ⟨n, hname, hfind⟩⟩
  | anonymous word unnamed memory =>
    have hname := (name?_of_mentioned word).trans unnamed
    refine ⟨_, _, rfl, ?_, .inr ⟨hname, Nat.le_refl _, hnew hname (Nat.le_refl _)⟩⟩
    rw [memory]
    exact Nat.lt_succ_self _

/-- Along a run, what is remembered stays fair and grows. -/
theorem grows_of_linked {m m' : Memory} {asks : List (Session Memory)}
    (h : sparql.Linked m asks m') (hm : m.Fair) : ∀ a ∈ asks, m.Grows a.memory ∧ a.memory.Fair := by
  induction h with
  | nil => exact fun a ha => absurd ha List.not_mem_nil
  | @cons b asks m' _ ih =>
    have hturn := turn_at hm
    intro a ha
    rcases List.mem_cons.mp ha with rfl | ha
    · exact ⟨.refl _, hm⟩
    · have ⟨hgrows, hfair⟩ := ih (hturn.fair hm) a ha
      exact ⟨hturn.grows.trans hgrows, hfair⟩

/-- The memory stays fair over any run. -/
theorem fair_of_linked {m m' : Memory} {asks : List (Session Memory)}
    (h : sparql.Linked m asks m') (hm : m.Fair) : m'.Fair := by
  induction h with
  | nil => exact hm
  | cons _ ih => exact ih ((turn_at hm).fair hm)

/-- **Two terms**, one read after the other, are the same if they have the same name. -/
theorem sameTerm_iff {a b : Session Memory} (ha : a.memory.Fair) (hb : b.memory.Fair)
    (hgrows : (sparql.memoryAt a).Grows b.memory) {v w : Value} (hv : termAt? a = some v)
    (hw : termAt? b = some w) :
    v.sameTerm w = true ↔ ∃ n, name? (spelled a) = some n ∧ name? (spelled b) = some n := by
  have hturn := turn_at hb
  have hall := hgrows.trans hturn.grows
  obtain ⟨k, t, rfl, hk, hv⟩ := term_at ha hv
  obtain ⟨k', t', rfl, hk', hw⟩ := term_at hb hw
  have hsame : (Value.term k t).sameTerm (.term k' t') = true ↔ k = k' := by
    rw [Value.sameTerm, beq_iff_eq]
  have hle := hgrows.handles
  rw [hsame]
  rcases hv with ⟨n, hn, hfind⟩ | ⟨hn, hnew, hlost⟩
  · rcases hw with ⟨n', hn', hfind'⟩ | ⟨hn', hnew', hlost'⟩
    · -- Both are remembered after the second one has been read.
      have hfind := hall.keeps n _ hfind
      constructor
      · rintro rfl
        obtain rfl := (hturn.fair hb).distinct n n' _ _ _ hfind hfind'
        exact ⟨n, hn, hn'⟩
      · rintro ⟨n₀, h, h'⟩
        rw [hn] at h
        rw [hn'] at h'
        cases h
        cases h'
        rw [hfind] at hfind'
        cases hfind'
        rfl
    · rw [hn']
      constructor
      · omega
      · rintro ⟨_, -, ⟨⟩⟩
  · rw [hn]
    constructor
    · rintro rfl
      rcases hw with ⟨n', -, hfind'⟩ | ⟨-, hnew', -⟩
      · rcases hall.adds n' k t' hfind' with hfind' | hle'
        · exact absurd hfind' (hlost n' t')
        · omega
      · omega
    · rintro ⟨_, ⟨⟩, -⟩

/-- What holds of two sessions, one of which has come from the other, holds of all of a run. -/
theorem pairwise_of_linked {m m' : Memory} {asks : List (Session Memory)}
    (h : sparql.Linked m asks m') (hm : m.Fair) {R : Session Memory → Session Memory → Prop}
    (hR : ∀ a b, a.memory.Fair → b.memory.Fair → (sparql.memoryAt a).Grows b.memory → R a b) :
    asks.Pairwise R := by
  induction h with
  | nil => exact .nil
  | @cons a asks m' rest ih =>
    have hfair := (turn_at hm).fair hm
    refine .cons (fun b hb => ?_) (ih hfair)
    obtain ⟨hgrows, hb⟩ := grows_of_linked rest hfair b hb
    exact hR a b hm hb hgrows

/-- A name that is not mentioned is not remembered anew. -/
theorem find?_of_unmentioned {m m' : Memory} {asks : List (Session Memory)}
    (h : sparql.Linked m asks m') (hm : m.Fair) {n : Name}
    (hn : ∀ a ∈ asks, name? (spelled a) ≠ some n) : m'.find? n = m.find? n := by
  induction h with
  | nil => rfl
  | @cons a asks m' rest ih =>
    have hturn := turn_at hm
    rw [ih (hturn.fair hm) fun b hb => hn b (List.mem_cons_of_mem _ hb)]
    exact hturn.find?_of_ne (hn a List.mem_cons_self)

/-- **The first mention** of a name settles the term, whether it is part of what is returned or
not. -/
theorem eq_first_mention {m m' : Memory} {before after : List (Session Memory)}
    {a b : Session Memory} (h : sparql.Linked m (before ++ a :: after) m') (hm : m.Fair) {n : Name}
    (hnone : m.find? n = none) {t : Term} (ha : mentioned? (spelled a) = some t)
    (ht : nameOf? t = some n) (hbefore : ∀ b ∈ before, name? (spelled b) ≠ some n)
    (hb : b ∈ a :: after) (hname : name? (spelled b) = some n) {v : Value} (hv : termAt? b = some v) :
    ∃ k, v = .term k t := by
  obtain ⟨hlinked, hrest⟩ := h.of_append
  have hfair : a.memory.Fair :=
    (grows_of_linked h hm a (List.mem_append_right _ List.mem_cons_self)).2
  have hfind : a.memory.find? n = none := (find?_of_unmentioned hlinked hm hbefore).trans hnone
  have hturn := turn_at hfair
  have hfirst : (sparql.memoryAt a).find? n = some (.term a.memory.handles t) := by
    cases hturn with
    | other unnamed _ _ _ _ =>
      rw [unnamed] at ha
      cases ha
    | mentions mentioned found _ =>
      rw [mentioned] at ha
      cases ha
      rw [found.find?_eq ht, found.eq_mention ht hfind]
  -- What is remembered after the first mention is what the later one finds.
  have hlater : (sparql.memoryAt b).find? n = some (.term a.memory.handles t) := by
    rcases List.mem_cons.mp hb with rfl | hb
    · exact hfirst
    · obtain ⟨hgrows, hfair'⟩ := grows_of_linked hrest (hturn.fair hfair) b hb
      exact (turn_at hfair').grows.keeps n _ (hgrows.keeps n _ hfirst)
  have hfair' : b.memory.Fair :=
    (grows_of_linked h hm b (List.mem_append_right _ hb)).2
  obtain ⟨k, u, rfl, -, ⟨n', hn', hfind'⟩ | ⟨hn', -⟩⟩ := term_at hfair' hv
  · rw [hname] at hn'
    cases hn'
    rw [hlater] at hfind'
    cases hfind'
    exact ⟨_, rfl⟩
  · rw [hname] at hn'
    cases hn'

/-! ## Calls -/

/-- The terms among the tokens are the terms that are read. -/
theorem terms_of_tokens {asks : List (Session Memory)} (hasks : ∀ a ∈ asks, a.memory.Fair) :
    (asks.filterMap sparql.tokenAt?).flatMap Token.terms = asks.filterMap termAt? := by
  induction asks with
  | nil => rfl
  | cons a asks ih =>
    have ih := ih fun b hb => hasks b (List.mem_cons_of_mem _ hb)
    cases htoken : sparql.tokenAt? a with
    | none =>
      have hterm : termAt? a = none := by rw [termAt?, htoken]
      rw [List.filterMap_cons_none htoken, List.filterMap_cons_none hterm, ih]
    | some token =>
      have hterms := terms_of_tokenAt? (hasks a List.mem_cons_self) htoken
      rw [List.filterMap_cons_some htoken, List.flatMap_cons, hterms, ih]
      cases hterm : termAt? a with
      | none => rw [List.filterMap_cons_none hterm, Option.toList_none, List.nil_append]
      | some v => rw [List.filterMap_cons_some hterm, Option.toList_some, List.singleton_append]

/-- The terms in an answer are those of the tokens that were asked for. -/
theorem terms_of_trace {s : Session Memory} (hs : s.memory.Fair) (calls : List Call) :
    List.Forall₂
      (fun answer asks => (∀ e, answer ≠ .failed e) →
        Value.termsAll answer.items = asks.filterMap termAt?)
      (Call.answers sparql s calls) (Call.trace sparql s calls) := by
  induction calls generalizing s with
  | nil => exact .nil
  | cons call calls ih =>
    obtain ⟨hbreaks, hasked⟩ := Flat.call_asked .sparql s call
    refine .cons (fun hok => ?_) (ih (fair_of_linked hbreaks.linked hs))
    obtain ⟨-, us, hus, htokens⟩ := hasked hok
    have hasks := fun a ha => (grows_of_linked hbreaks.linked hs a ha).2
    rw [← terms_of_tokens hasks, ← hus.terms_eq]
    rcases htokens with htokens | htokens
    · rw [htokens]
    · rw [htokens, List.flatMap_append]
      exact (List.append_nil _).symm

/-- A session that has not been used has no term to remember. -/
theorem fair_start (ab : Abbreviations) : Memory.Fair { abbreviations := ab } where
  term n v h := by cases n <;> cases h
  distinct n n' k t t' h := by cases n <;> cases h

/-- **Terms keep their identity** over a session, whatever is called and whether or not it fails.
The terms in the answers are those of the tokens that are asked for. Two of them are the same if and
only if both have a name and it is the same one. Which blank node or variable a name stands for is
settled by its first mention, even if that was in a call that failed. -/
theorem terms_keep_identity (text : List Char) (fault : Option Fault) (ab : Abbreviations)
    (limit : Nat) (calls : List Call) :
    let s : Session Memory := .fresh text fault { abbreviations := ab } limit
    let asks := (Call.trace sparql s calls).flatten
    List.Forall₂
        (fun answer asks => (∀ e, answer ≠ .failed e) →
          Value.termsAll answer.items = asks.filterMap termAt?)
        (Call.answers sparql s calls) (Call.trace sparql s calls) ∧
      (asks.Pairwise fun a b => ∀ v ∈ termAt? a, ∀ w ∈ termAt? b,
        (v.sameTerm w = true ↔ ∃ n, name? (spelled a) = some n ∧ name? (spelled b) = some n)) ∧
      ∀ before a after, asks = before ++ a :: after →
        ∀ t n, mentioned? (spelled a) = some t → nameOf? t = some n →
          (∀ b ∈ before, name? (spelled b) ≠ some n) →
          ∀ b ∈ a :: after, name? (spelled b) = some n →
            ∀ v ∈ termAt? b, ∃ h, v = .term h t := by
  intro s asks
  have hfair : s.memory.Fair := fair_start ab
  have hlinked : sparql.Linked s.memory asks (Call.after sparql s calls).memory :=
    Flat.linked_trace .sparql s calls
  refine ⟨terms_of_trace hfair calls, pairwise_of_linked hlinked hfair ?_, ?_⟩
  · exact fun a b ha hb hgrows v hv w hw => sameTerm_iff ha hb hgrows hv hw
  intro before a after hasks t n ha ht hbefore b hb hname v hv
  rw [hasks] at hlinked
  have hnone : s.memory.find? n = none := by cases n <;> rfl
  exact eq_first_mention hlinked hfair hnone ha ht hbefore hb hname hv

/-- The variable is first mentioned as a datatype, which fails. What it was then it is later, with
another sigil. -/
theorem terms_keep_identity_failed :
    let s : Session Memory := .fresh "\"1\"^^$.v (_:v ?v ?)".toList none {} 500
    let asks := (Call.trace sparql s [.read, .next]).flatten
    asks.map spelled = ["$.v".toList, [], "_:v".toList, "?v".toList, "?".toList, []] ∧
      asks.map (fun a => (termAt? a).isSome) = [false, false, true, true, true, false] ∧
      ∃ a opener blank var new closer,
        asks = [a, opener, blank, var, new, closer] ∧
        (∀ v ∈ termAt? var,
          ∃ h, v = .term h (.var { name := "v", distinguished := false, existential := true })) ∧
        ∀ v ∈ termAt? var, ∀ w ∈ termAt? new, v.sameTerm w = false := by
  intro s asks
  have hspelled : asks.map spelled =
      ["$.v".toList, [], "_:v".toList, "?v".toList, "?".toList, []] := by decide +kernel
  obtain ⟨-, hpairs, hfirst⟩ :=
    terms_keep_identity "\"1\"^^$.v (_:v ?v ?)".toList none {} 500 [.read, .next]
  refine ⟨hspelled, by decide +kernel, ?_⟩
  simp only [List.map_eq_cons_iff, List.map_eq_nil_iff] at hspelled
  obtain ⟨a, -, hasks, ha, opener, -, rfl, hopener, blank, -, rfl, hblank, var, -, rfl, hvar, new, -,
    rfl, hnew, closer, -, rfl, hcloser, rfl⟩ := hspelled
  -- The first mention is in the token that failed; the last two are one after the other.
  refine ⟨a, opener, blank, var, new, closer, hasks, ?_, ?_⟩
  · refine hfirst [] a [opener, blank, var, new, closer] hasks _ (.var "v") ?_ rfl
      (fun b hb => absurd hb List.not_mem_nil) var (by simp) ?_
    · rw [ha]
      decide
    · rw [hvar]
      decide
  · intro v hv w hw
    have hlast : [var, new].Sublist asks := by
      rw [hasks]
      exact .cons _ (.cons _ (.cons _ (.cons_cons _ (.cons_cons _ (.cons _ .slnil)))))
    have hpair := List.rel_of_pairwise_cons (hpairs.sublist hlast) (List.mem_singleton_self new)
    have hunnamed : name? (spelled new) = none := by
      rw [hnew]
      decide
    apply Bool.eq_false_iff.mpr
    intro hsame
    obtain ⟨n, -, hn⟩ := (hpair v hv w hw).mp hsame
    rw [hunnamed] at hn
    cases hn

end SExpr.Dialect.Sparql
