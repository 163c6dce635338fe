import SExpr.Proofs.Equality
import SExpr.Proofs.Sparql.Token

/-!
# SPARQL terms are read back

Without a base and prefixes, a term that the syntax can say is written so that a new session reads
an equal one, whatever the layout. A session remembers blank nodes and variables by name, so
variables of one name have to agree.

* **`IsLeaf`**: the terms and symbols that the syntax can say.
* **`Ready`**: what a session remembers when it has read such leaves only.
* **`parse_formatAll_terms`**: a written document of such leaves is read back.
-/

namespace SExpr.Dialect.Sparql

open ReadM Text

/-! ## Leaves -/

/-- The type predicate as a word, or an IRI that can stand between angle brackets: not empty, and
neither an operator nor closed too early. -/
def IsIri (i : Iri) : Prop :=
  i = .rdfType ∨
    i.lexical = none ∧ '>' ∉ i.text.toList ∧
      ∃ c cs, i.text.toList = c :: cs ∧ lexicon.isAtomChar c = true ∧ c ≠ '='

/-- The characters of language tags. -/
def isTagChar (c : Char) : Bool := c.isLower || c.isDigit || c == '-'

/-- A literal with a language or a datatype, but not both. -/
def IsLiteral (l : Literal) : Prop :=
  match l.language, l.datatype with
  | none, none => True
  | some tag, none => tag.toList.all isTagChar = true
  | none, some i => IsIri i
  | some _, some _ => False

/-- A name that is not empty and has no blanks or brackets. -/
def IsName (name : String) : Prop :=
  name.toList ≠ [] ∧ name.toList.all lexicon.isAtomChar = true

/-- A variable whose name does not look like a part of its sigil. -/
def IsVariable (v : Variable) : Prop :=
  IsName v.name ∧ (v.distinguished = true →
    ∀ c ∈ v.name.toList.head?, c ≠ '.' ∧ c ≠ if v.existential then '$' else '?')

/-- An operator, or a symbol that stands bare for itself and begins no form. -/
def IsSymbol (name : String) : Prop :=
  name = "<" ∨ name = "<=" ∨
    name.toList.head? ≠ some '<' ∧ Symbol.needsBars .sparql name.toList = false ∧
      sameIgnoringCase name.toList "base".toList = false ∧
      sameIgnoringCase name.toList "prefix".toList = false ∧
      (atom name.toList {}).1 = .symbol name

/-- What the syntax can say without a base and prefixes. -/
def IsLeaf : Value → Prop
  | .atom .nil => True
  | .atom (.symbol name) => IsSymbol name
  | .term _ (.iri i) => IsIri i
  | .term _ (.literal l) => IsLiteral l
  | .term _ (.blank b) => IsName b.id
  | .term _ (.var v) => IsVariable v
  | _ => False

/-! ## What is remembered -/

/-- No abbreviations, no form begun, and every name stands for a term of that name; the variables
are all among `vars`. -/
structure Ready (vars : Variable → Prop) (m : Memory) : Prop where
  namespaces : m.abbreviations.namespaces = []
  base : m.abbreviations.base = none
  region : m.region = none
  awaitedName : m.awaitedName = none
  awaitsBase : m.awaitsBase = false
  blanks : ∀ id v, m.blanks.lookup id = some v → ∃ h, v = .term h (.blank { id })
  named : ∀ name v, m.vars.lookup name = some v →
    ∃ h w, v = .term h (.var w) ∧ w.name = name ∧ vars w

namespace Ready

variable {vars : Variable → Prop} {m : Memory}

theorem start : Ready vars {} := by
  constructor <;> simp

theorem mention (h : Ready vars m) (t : Term) : Ready vars (mention t m).2 :=
  ⟨h.namespaces, h.base, h.region, h.awaitedName, h.awaitsBase, h.blanks, h.named⟩

theorem opens (h : Ready vars m) : Ready vars (brackets.opens m) :=
  ⟨h.namespaces, h.base, h.region, h.awaitedName, h.awaitsBase, h.blanks, h.named⟩

theorem closes (h : Ready vars m) : Ready vars (brackets.closes m) := by
  refine ⟨h.namespaces, h.base, ?_, h.awaitedName, h.awaitsBase, h.blanks, h.named⟩
  show m.region.filter _ = none
  rw [h.region, Option.filter_none]

theorem iri_eq (h : Ready vars m) (raw : List Char) :
    iri raw m = Sparql.mention (.iri { text := String.ofList raw }) m := by
  simp only [iri, h.base, h.awaitsBase, h.awaitedName, Bool.false_eq_true, if_false]

/-- Without prefixes, a symbol stands for itself, unless it is the word that begins definitions. -/
theorem symbol_eq (h : Ready vars m) {cs : List Char}
    (hpre : sameIgnoringCase cs "prefix".toList = false) :
    symbol cs m = (.symbol (String.ofList cs), m) := by
  simp only [symbol, h.region, h.namespaces, hpre, Option.isSome_none, Bool.false_and,
    Bool.false_eq_true, if_false]
  split
  · rfl
  · simp [Namespaces.find?]

/-- A blank node stands for itself, now and later. -/
theorem blankNode (h : Ready vars m) {id : String} (hid : id.toList ≠ []) :
    (∃ n, (blankNode id m).1 = .term n (.blank { id })) ∧ Ready vars (blankNode id m).2 := by
  have hempty : id.isEmpty = false := by
    rw [Bool.eq_false_iff]
    intro hempty
    simp_all
  rw [Sparql.blankNode, hempty]
  simp only [Bool.false_eq_true, if_false]
  cases hlookup : m.blanks.lookup id with
  | some v => exact ⟨h.blanks id v hlookup, h⟩
  | none =>
    refine ⟨⟨_, rfl⟩, h.namespaces, h.base, h.region, h.awaitedName, h.awaitsBase, ?_, h.named⟩
    intro id' v hv
    simp only [Sparql.mention, List.lookup_cons] at hv
    split at hv
    · next heq =>
      cases hv
      rw [eq_of_beq heq]
      exact ⟨_, rfl⟩
    · exact h.blanks id' v hv

/-- So does a variable, if variables of one name agree. -/
theorem namedVariable (h : Ready vars m)
    (hvars : ∀ v w, vars v → vars w → v.name = w.name → v = w) {v : Variable} (hv : vars v)
    (hname : v.name.toList ≠ []) :
    (∃ n, (namedVariable v m).1 = .term n (.var v)) ∧ Ready vars (namedVariable v m).2 := by
  have hempty : v.name.isEmpty = false := by
    rw [Bool.eq_false_iff]
    intro hempty
    simp_all
  rw [Sparql.namedVariable, hempty]
  simp only [Bool.false_eq_true, if_false]
  cases hlookup : m.vars.lookup v.name with
  | some u =>
    -- The variable that is remembered has the same name, so it is the same.
    obtain ⟨n, w, rfl, hw, hmem⟩ := h.named _ _ hlookup
    exact ⟨⟨n, by rw [hvars w v hmem hv hw]⟩, h⟩
  | none =>
    refine ⟨⟨_, rfl⟩, h.namespaces, h.base, h.region, h.awaitedName, h.awaitsBase, h.blanks, ?_⟩
    intro name u hu
    simp only [Sparql.mention, List.lookup_cons] at hu
    split at hu
    · next heq =>
      cases hu
      exact ⟨_, v, rfl, (eq_of_beq heq).symm, hv⟩
    · exact h.named name u hu

end Ready

/-! ## What literals stand for -/

/-- A word that begins with another letter is none of the four. -/
theorem sameIgnoringCase_words_eq_false {c : Char} (hc : c.toLower ∉ ['b', 'n', 't', 'f'])
    (cs : List Char) :
    ∀ word ∈ ["base", "nil", "true", "false"], sameIgnoringCase (c :: cs) word.toList = false := by
  intro word hword
  have hne (d : Char) (hd : d ∈ ['b', 'n', 't', 'f']) : c.toLower ≠ d := by
    rintro rfl
    exact hc hd
  simp only [List.mem_cons, List.not_mem_nil, or_false] at hword
  rcases hword with rfl | rfl | rfl | rfl
  all_goals exact sameIgnoringCase_cons_eq_false (hne _ (by decide)) _ _

/-- What a literal stands for that is no word: a numeral, a blank node, a variable or a symbol. -/
def wordless (text : List Char) : Remembering Value := fun m =>
  if Numeral.isDouble text then mention (.literal (.xsd (String.ofList text) "double")) m
  else if Numeral.isDecimal text then mention (.literal (.xsd (String.ofList text) "decimal")) m
  else if Numeral.isSignedDigits text then
    mention (.literal (.xsd (String.ofList text) "integer")) m
  else
    match after? ['_', ':'] text with
    | some id => blankNode (String.ofList id) m
    | none =>
      match queryVar? text with
      | some v => namedVariable v m
      | none => (.symbol (String.ofList text), m)

/-- A literal that is none of the words is an IRI, a literal or a symbol by its shape. -/
theorem atom_of_no_word {cs : List Char} (hdot : cs ≠ ['.']) (ha : cs ≠ ['a'])
    (hwords : ∀ word ∈ ["base", "nil", "true", "false"], sameIgnoringCase cs word.toList = false)
    (m : Memory) : atom cs m = wordless cs m := by
  have hne (word : List Char) (hword : cs ≠ word) : String.ofList cs ≠ String.ofList word := by
    intro h
    exact hword (by simpa using congrArg String.toList h)
  have hdot' : String.ofList cs ≠ "." := hne ['.'] hdot
  have ha' : String.ofList cs ≠ "a" := hne ['a'] ha
  unfold atom
  simp only [if_neg hdot', if_neg ha', hwords "base" (by decide), hwords "nil" (by decide),
    hwords "true" (by decide), hwords "false" (by decide), Bool.false_eq_true, if_false]
  rfl

theorem atom_cons {c : Char} {cs : List Char} (hdot : c :: cs ≠ ['.']) (ha : c ≠ 'a')
    (hc : c.toLower ∉ ['b', 'n', 't', 'f']) (m : Memory) :
    atom (c :: cs) m = wordless (c :: cs) m :=
  atom_of_no_word hdot (by simp [ha]) (sameIgnoringCase_words_eq_false hc cs) m

/-- The underscore keeps a text from being a word or a numeral. -/
theorem atom_blank (id : List Char) (m : Memory) :
    atom ('_' :: ':' :: id) m = blankNode (String.ofList id) m := by
  have hfirst : '_' ∉ Numeral.numeralChars := by decide
  have hnumeral := Numeral.isNumeral_eq_false hfirst (List.mem_cons_self (l := ':' :: id))
  rw [atom_cons (by simp) (by decide) (by decide), wordless]
  simp [hnumeral, after?]

/-- A variable has a sigil. -/
theorem exists_sigil {text : List Char} {v : Variable} (h : queryVar? text = some v) :
    ∃ c cs, text = c :: cs ∧ (c = '?' ∨ c = '$') := by
  unfold queryVar? at h
  split at h
  · cases h
  · next c cs =>
    split at h
    · next hc => exact ⟨c, cs, rfl, hc⟩
    · cases h

/-- What begins with no sigil is no variable. -/
theorem queryVar?_cons_eq_none {c : Char} (hc : c ∉ ['?', '$']) (cs : List Char) :
    queryVar? (c :: cs) = none := by
  rw [Option.eq_none_iff_forall_ne_some]
  intro v hv
  obtain ⟨d, ds, heq, hd⟩ := exists_sigil hv
  cases heq
  exact hc (by simpa using hd)

/-- So does the sigil of a variable. -/
theorem atom_var {text : List Char} {v : Variable} (h : queryVar? text = some v) (m : Memory) :
    atom text m = namedVariable v m := by
  obtain ⟨c, cs, rfl, hc⟩ := exists_sigil h
  have hfirst : c ∉ Numeral.numeralChars ∧ c ≠ '.' ∧ c ≠ 'a' ∧ c ≠ '_' ∧
      c.toLower ∉ ['b', 'n', 't', 'f'] := by
    rcases hc with rfl | rfl <;> decide
  obtain ⟨hnumeral, hdot, ha, hblank, hword⟩ := hfirst
  have hnumeral := Numeral.isNumeral_eq_false hnumeral (List.mem_cons_self (l := cs))
  rw [atom_cons (by simp [hdot]) ha hword, wordless]
  simp [hnumeral, after?, Ne.symm hblank, h]

/-! ## Leaves read back -/

/-- The text is a leaf for an equal value, and what is remembered stays in order. -/
def ReadsEqual (vars : Variable → Prop) (room : Nat) (m : Memory) (text : List Char) (v : Value) :
    Prop :=
  ∃ w m', sparql.ReadsLeaf room m text w m' ∧ w.eq v = true ∧ Ready vars m'

section Leaves

variable {vars : Variable → Prop} {m : Memory}

/-- A leaf that mentions an equal term is read back as equal. -/
theorem readsEqual_mention {room : Nat} {text : List Char} {t u : Term} (hm : Ready vars m)
    (h : sparql.ReadsLeaf room m text (mention t m).1 (mention t m).2) (htu : t.eq u = true)
    (n : Nat) : ReadsEqual vars room m text (.term n u) := by
  refine ⟨_, _, h, ?_, hm.mention t⟩
  rw [mention, Value.eq]
  exact htu

/-- A literal of which it is known what it stands for. -/
theorem readsLeaf_atom {c : Char} {cs : List Char} {v : Value} {m' : Memory}
    (htext : (c :: cs).all lexicon.isAtomChar = true) (hc : c ∉ ['"', '\'', '<', ';', '#'])
    (hatom : atom (c :: cs) m = (v, m')) (hv : ∀ name, v ≠ .symbol name) (room : Nat) :
    sparql.ReadsLeaf room m (c :: cs) v m' := by
  have h := readsLeaf_literal htext hc room m
  have hmeaning : meaning (c :: cs) m = (v, m') := by
    rw [meaning, hatom, classify]
    exact hv
  rwa [hmeaning] at h

theorem atom_nil (m : Memory) : atom ['n', 'i', 'l'] m = (.nil, m) := by
  unfold atom
  rw [if_neg (by decide), if_neg (by decide), if_neg (by decide), if_pos (by decide)]

theorem atom_rdfType (m : Memory) : atom ['a'] m = mention (.iri .rdfType) m := by
  unfold atom
  rw [if_neg (by decide), if_pos (by decide)]

theorem atom_true (m : Memory) :
    atom ['t', 'r', 'u', 'e'] m = mention (.literal (.xsd "true" "boolean")) m := by
  unfold atom
  rw [if_neg (by decide), if_neg (by decide), if_neg (by decide), if_neg (by decide),
    if_pos (by decide)]

theorem atom_false (m : Memory) :
    atom ['f', 'a', 'l', 's', 'e'] m = mention (.literal (.xsd "false" "boolean")) m := by
  unfold atom
  rw [if_neg (by decide), if_neg (by decide), if_neg (by decide), if_neg (by decide),
    if_neg (by decide), if_pos (by decide)]

/-- An IRI is a token wherever a token may stand, also as a datatype. -/
theorem yields_tokenIn_iri (hm : Ready vars m) {i : Iri} (hi : IsIri i) (allowance : List Char)
    {rest : List Char} (hrest : Delimits rest) :
    Yields (tokenIn allowance) m (i.written {} ++ rest) (.value (mention (.iri i) m).1)
      (mention (.iri i) m).2 rest := by
  rcases hi with rfl | ⟨hlexical, hclose, c, cs, htext, hc, heq⟩
  · refine yields_tokenIn (fun datatype => ?_) allowance
    have h : Yields (tokenWith datatype) m (['a'] ++ rest) (.value (meaning ['a'] m).1)
        (meaning ['a'] m).2 rest :=
      yields_tokenWith_literal (by decide) (by decide) m hrest
    rw [meaning, atom_rdfType] at h
    exact h
  · refine yields_tokenIn (fun datatype => ?_) allowance
    have hwritten : i.written {} = '<' :: (c :: cs ++ ['>']) := by
      simp [Iri.written, hlexical, Iri.prefixedName?, Iri.bestNamespace?, Iri.relative?, htext]
    have hi : i = { text := String.ofList (c :: cs) } := by
      rw [← htext, String.ofList_toList]
      cases i
      simp_all
    rw [htext] at hclose
    rw [hwritten, List.cons_append, List.append_assoc, List.singleton_append, hi, ← hm.iri_eq]
    exact yields_tokenWith_angle (isRaw_cons hc heq hclose) m rest

/-- An IRI is read back as it was written, in brackets or as the one letter. -/
theorem readsEqual_iri (hm : Ready vars m) {i : Iri} (hi : IsIri i) (room n : Nat) :
    ReadsEqual vars room m (i.written {}) (.term n (.iri i)) := by
  have hwritten : ∃ c cs, i.written {} = c :: cs ∧ (c = 'a' ∨ c = '<') := by
    rcases hi with rfl | ⟨hlexical, -⟩
    · exact ⟨'a', [], rfl, .inl rfl⟩
    · refine ⟨'<', i.text.toList ++ ['>'], ?_, .inr rfl⟩
      simp [Iri.written, hlexical, Iri.prefixedName?, Iri.bestNamespace?, Iri.relative?]
  have htoken (rest : List Char) (hrest : Delimits rest) :=
    yields_token_of_tokenIn (yields_tokenIn_iri hm hi _ hrest)
  obtain ⟨c, cs, heq, hc⟩ := hwritten
  rw [heq] at htoken ⊢
  refine readsEqual_mention hm (readsLeaf_of_token ?_ ?_ htoken) (by simp [Term.eq, Iri.eq]) n
  · rcases hc with rfl | rfl <;> decide
  · rcases hc with rfl | rfl <;> decide

/-! ### Literals -/

/-- The characters of a tag are ASCII characters. -/
theorem toNat_of_isTagChar {c : Char} (hc : isTagChar c = true) : c.toNat < 123 := by
  simp only [isTagChar, Char.isLower, Char.isDigit, Bool.or_eq_true, Bool.and_eq_true,
    decide_eq_true_eq, beq_iff_eq, ge_iff_le, UInt32.le_iff_toNat_le] at hc
  have hval : c.val.toNat = c.toNat := rfl
  have hz : ('z' : Char).val.toNat = 122 := rfl
  have hnine : ('9' : Char).val.toNat = 57 := rfl
  rcases hc with (hc | hc) | rfl
  · omega
  · omega
  · decide

/-- They are in lower case. -/
theorem lowerChar_of_isTagChar {c : Char} (hc : isTagChar c = true) : lowerChar c = c := by
  have hall : ∀ n < 123, isTagChar (Char.ofNat n) = true →
      lowerChar (Char.ofNat n) = Char.ofNat n := by decide +kernel
  have h := hall c.toNat (toNat_of_isTagChar hc)
  rw [Char.ofNat_toNat] at h
  exact h hc

/-- They can stand in a literal. -/
theorem isAtomChar_of_isTagChar {c : Char} (hc : isTagChar c = true) :
    lexicon.isAtomChar c = true := by
  have hall : ∀ n < 123, isTagChar (Char.ofNat n) = true →
      lexicon.isAtomChar (Char.ofNat n) = true := by decide +kernel
  have h := hall c.toNat (toNat_of_isTagChar hc)
  rw [Char.ofNat_toNat] at h
  exact h hc

/-- A tag that is in lower case stays as it is. -/
theorem lowerFrom_tag {tag : List Char} (htag : tag.all isTagChar = true) (before : List Char) :
    lowerFrom before tag = tag := by
  induction tag generalizing before with
  | nil => rfl
  | cons c tag ih =>
    rw [List.all_cons, Bool.and_eq_true] at htag
    have hsigma : (c == 'Σ') = false := by
      rw [beq_eq_false_iff_ne]
      rintro rfl
      exact absurd htag.1 (by decide)
    have hdotted : (c == 'İ') = false := by
      rw [beq_eq_false_iff_ne]
      rintro rfl
      exact absurd htag.1 (by decide)
    rw [lowerFrom, ih htag.2, lowerBetween, hsigma, hdotted, lowerChar_of_isTagChar htag.1]
    rfl

/-- The name of the datatype that a numeral has. -/
def numeralType? (text : List Char) : Option String :=
  if Numeral.isDouble text then some "double"
  else if Numeral.isDecimal text then some "decimal"
  else if Numeral.isSignedDigits text then some "integer"
  else none

/-- What is a numeral is written in the characters of numerals, and is not just a point. -/
theorem numeralType?_some {text : List Char} {datatype : String}
    (h : numeralType? text = some datatype) :
    text ≠ [] ∧ text ≠ ['.'] ∧ ∀ c ∈ text, c ∈ Numeral.numeralChars := by
  refine ⟨?_, ?_, fun c hc => ?_⟩
  · rintro rfl
    exact absurd h (by simp [numeralType?, show Numeral.isDouble [] = false by decide,
      show Numeral.isDecimal [] = false by decide,
      show Numeral.isSignedDigits [] = false by decide])
  · rintro rfl
    exact absurd h (by simp [numeralType?, show Numeral.isDouble ['.'] = false by decide,
      show Numeral.isDecimal ['.'] = false by decide,
      show Numeral.isSignedDigits ['.'] = false by decide])
  · unfold numeralType? at h
    split at h
    · next hdouble => exact Numeral.mem_of_isDouble hdouble hc
    split at h
    · next hdecimal => exact Numeral.mem_numeralChars_of_mem (Numeral.mem_of_isDecimal hdecimal hc)
    split at h
    · next hdigits => exact Numeral.mem_numeralChars_of_isSignedDigits hdigits hc
    · cases h

/-- A numeral stands for the literal of its text and its datatype. -/
theorem atom_numeral {c : Char} {cs : List Char} {datatype : String}
    (h : numeralType? (c :: cs) = some datatype) (m : Memory) :
    atom (c :: cs) m = mention (.literal (.xsd (String.ofList (c :: cs)) datatype)) m := by
  obtain ⟨-, hdot, hchars⟩ := numeralType?_some h
  have hfirst : ∀ c ∈ Numeral.numeralChars,
      c ≠ 'a' ∧ c.toLower ∉ ['b', 'n', 't', 'f'] := List.all_iff_forall_prop.mp (by decide)
  have hc := hfirst c (hchars c List.mem_cons_self)
  rw [atom_cons hdot hc.1 hc.2, wordless]
  unfold numeralType? at h
  repeat' split at h
  all_goals simp_all

/-- A literal that is written bare is one of a boolean or a numeral. -/
theorem isBare_cases {l : Literal} (h : l.isBare = true) :
    ∃ i datatype, l.datatype = some i ∧ i.text = Iri.xsdNamespace ++ datatype ∧
      (datatype = "boolean" ∧ (l.value = "true" ∨ l.value = "false") ∨
        numeralType? l.value.toList = some datatype) := by
  -- The datatype is asked for in turn: boolean, integer, decimal, double.
  unfold Literal.isBare at h
  cases hi : l.datatype with
  | none => simp [hi] at h
  | some i =>
    simp only [hi] at h
    split at h
    · next htext => exact ⟨i, "boolean", rfl, htext, .inl ⟨rfl, by simpa using h⟩⟩
    split at h
    · next htext =>
      have hdigits := Numeral.isSignedDigits_of_integer? h
      refine ⟨i, "integer", rfl, htext, .inr ?_⟩
      have hdouble : Numeral.isDouble l.value.toList = false := by
        refine Numeral.isDouble_eq_false fun c hc => ?_
        have hall : ∀ c ∈ ['+', '-'] ++ Numeral.digitChars, c ≠ 'e' ∧ c ≠ 'E' :=
          List.all_iff_forall_prop.mp (by decide)
        exact hall c (Numeral.mem_of_isSignedDigits hdigits hc)
      simp [numeralType?, hdouble, Numeral.isDecimal_eq_false hdigits, hdigits]
    split at h
    · next htext =>
      refine ⟨i, "decimal", rfl, htext, .inr ?_⟩
      have hdouble : Numeral.isDouble l.value.toList = false := by
        refine Numeral.isDouble_eq_false fun c hc => ?_
        have hall : ∀ c ∈ ['+', '-', '.'] ++ Numeral.digitChars, c ≠ 'e' ∧ c ≠ 'E' :=
          List.all_iff_forall_prop.mp (by decide)
        exact hall c (Numeral.mem_of_isDecimal h hc)
      simp [numeralType?, hdouble, h]
    split at h
    · next htext => exact ⟨i, "double", rfl, htext, .inr (by simp [numeralType?, h])⟩
    · cases h

theorem literal_eq_xsd {l : Literal} {i : Iri} {datatype : String} (hlanguage : l.language = none)
    (hi : l.datatype = some i) (htext : i.text = Iri.xsdNamespace ++ datatype) :
    (Term.literal (.xsd l.value datatype)).eq (.literal l) = true := by
  simp [Term.eq, Literal.eq, Literal.xsd, hlanguage, hi, Iri.eq, Iri.xsd, htext]

/-- A literal that is written bare. -/
theorem readsEqual_bare (hm : Ready vars m) {l : Literal} (hlanguage : l.language = none)
    (hbare : l.isBare = true) (room n : Nat) :
    ReadsEqual vars room m l.value.toList (.term n (.literal l)) := by
  obtain ⟨i, datatype, hi, htext, hvalue⟩ := isBare_cases hbare
  have heq := literal_eq_xsd hlanguage hi htext
  rcases hvalue with ⟨rfl, hvalue | hvalue⟩ | hnumeral
  · rw [hvalue] at heq ⊢
    exact readsEqual_mention hm (readsLeaf_atom (by decide) (by decide) (atom_true m)
      (by simp) room) heq n
  · rw [hvalue] at heq ⊢
    exact readsEqual_mention hm (readsLeaf_atom (by decide) (by decide) (atom_false m)
      (by simp) room) heq n
  · -- A numeral is read by its shape, which gives it the datatype it was written for.
    obtain ⟨hne, -, hchars⟩ := numeralType?_some hnumeral
    cases hcs : l.value.toList with
    | nil => exact absurd hcs hne
    | cons c cs =>
      rw [hcs] at hnumeral hchars
      have hall : ∀ c ∈ Numeral.numeralChars,
          lexicon.isAtomChar c = true ∧ c ∉ ['"', '\'', '<', ';', '#'] :=
        List.all_iff_forall_prop.mp (by decide)
      have hatom := atom_numeral hnumeral m
      rw [← hcs, String.ofList_toList, hcs] at hatom
      refine readsEqual_mention hm (readsLeaf_atom ?_ (hall c (hchars c List.mem_cons_self)).2 hatom
        (by simp) room) heq n
      rw [List.all_eq_true]
      exact fun d hd => (hall d (hchars d hd)).1

/-- A literal is read back as it was written: bare, with a tag, with a datatype, or with neither. -/
theorem readsEqual_literal (hm : Ready vars m) {l : Literal} (hl : IsLiteral l) (room n : Nat) :
    ReadsEqual vars room m (l.written {}) (.term n (.literal l)) := by
  unfold IsLiteral at hl
  rw [Literal.written]
  split
  · next hbare =>
    -- A literal with a tag has no datatype, so it is not written bare.
    refine readsEqual_bare hm ?_ hbare room n
    cases htag : l.language with
    | none => rfl
    | some tag =>
      obtain ⟨i, -, hi, -⟩ := isBare_cases hbare
      simp [htag, hi] at hl
  · cases htag : l.language with
    | none =>
      cases hi : l.datatype with
      | none =>
        have h := readsLeaf_quoted l.quote l.value.toList room m
        rw [String.ofList_toList] at h
        rw [List.append_nil]
        exact readsEqual_mention hm h (by simp [Term.eq, Literal.eq, htag, hi]) n
      | some i =>
        simp only [htag, hi] at hl
        -- The datatype is an IRI in brackets after the quotes, and a mention of its own.
        have h := readsLeaf_typed l.quote l.value.toList
          (fun allowance rest hrest => yields_tokenIn_iri hm hl allowance hrest) rfl room
        rw [String.ofList_toList] at h
        refine ⟨_, _, h, ?_, (hm.mention _).mention _⟩
        rw [mention, Value.eq]
        simp [Term.eq, Literal.eq, htag, hi, Iri.eq]
    | some tag =>
      cases hi : l.datatype with
      | some i => simp [htag, hi] at hl
      | none =>
        simp only [htag, hi] at hl
        have hall : tag.toList.all lexicon.isAtomChar = true := by
          rw [List.all_eq_true] at hl ⊢
          exact fun c hc => isAtomChar_of_isTagChar (hl c hc)
        have h := readsLeaf_tagged l.quote l.value.toList hall room m
        -- The reader puts the tag in lower case, which it is in already.
        rw [String.ofList_toList, lowercase, lowerFrom_tag hl, String.ofList_toList] at h
        exact readsEqual_mention hm h (by simp [Term.eq, Literal.eq, htag, hi]) n

/-! ### Blank nodes, variables and symbols -/

/-- A blank node is read back under its name, as the one remembered or as a new one. -/
theorem readsEqual_blank (hm : Ready vars m) {b : BlankNode} (hb : IsName b.id) (room n : Nat) :
    ReadsEqual vars room m ('_' :: ':' :: b.id.toList) (.term n (.blank b)) := by
  have hatom : atom ('_' :: ':' :: b.id.toList) m = blankNode b.id m := by
    rw [atom_blank, String.ofList_toList]
  obtain ⟨⟨k, hk⟩, hm'⟩ := hm.blankNode hb.1
  refine ⟨.term k (.blank { id := b.id }), _, ?_, ?_, hm'⟩
  · refine readsLeaf_atom ?_ (by decide) (hatom.trans (Prod.ext hk rfl)) (by simp) room
    have hfirst : lexicon.isAtomChar '_' = true ∧ lexicon.isAtomChar ':' = true := by decide
    rw [List.all_cons, List.all_cons, hfirst.1, hfirst.2, hb.2]
    rfl
  · exact Term.eq_self (.blank b)

/-- The sigil and the name of a variable are told apart again. -/
theorem queryVar?_written {v : Variable} (hv : IsVariable v) :
    queryVar? (v.sigil ++ v.name.toList) = some v := by
  obtain ⟨⟨hne, -⟩, hfirst⟩ := hv
  obtain ⟨name, distinguished, existential⟩ := v
  cases hcs : name.toList with
  | nil => exact absurd hcs hne
  | cons c cs =>
    have hname : String.ofList (c :: cs) = name := by rw [← hcs, String.ofList_toList]
    cases distinguished with
    | true =>
      have hc := hfirst rfl c (by simp [hcs])
      cases existential <;> simp_all [Variable.sigil, queryVar?]
    | false => cases existential <;> simp [Variable.sigil, queryVar?, List.replicate, hname]

/-- A variable is read back under its name and with its sigil, if those of one name agree. -/
theorem readsEqual_var (hm : Ready vars m)
    (hvars : ∀ v w, vars v → vars w → v.name = w.name → v = w) {v : Variable} (hv : IsVariable v)
    (hmem : vars v) (room n : Nat) :
    ReadsEqual vars room m (v.sigil ++ v.name.toList) (.term n (.var v)) := by
  have hquery := queryVar?_written hv
  have hsigil : ∃ c cs, v.sigil ++ v.name.toList = c :: cs ∧ (c = '?' ∨ c = '$') ∧
      (c :: cs).all lexicon.isAtomChar = true := by
    have hfirst : lexicon.isAtomChar '?' = true ∧ lexicon.isAtomChar '$' = true := by decide
    have hname := hv.1.2
    obtain ⟨name, distinguished, existential⟩ := v
    cases distinguished <;> cases existential
    all_goals exact ⟨_, _, rfl, by simp, by simp_all [List.replicate]⟩
  obtain ⟨c, cs, heq, hc, hall⟩ := hsigil
  rw [heq] at hquery ⊢
  have hown : c ∉ ['"', '\'', '<', ';', '#'] := by
    rcases hc with rfl | rfl <;> decide
  have hatom := atom_var hquery m
  obtain ⟨⟨k, hk⟩, hm'⟩ := hm.namedVariable hvars hmem hv.1.1
  refine ⟨.term k (.var v), _, ?_, Term.eq_self (.var v), hm'⟩
  exact readsLeaf_atom hall hown (hatom.trans (Prod.ext hk rfl)) (by simp) room

theorem blankNode_start_ne (id name : String) : (blankNode id {}).1 ≠ .symbol name := by
  unfold blankNode
  split <;> simp [mention]

theorem namedVariable_start_ne (v : Variable) (name : String) :
    (namedVariable v {}).1 ≠ .symbol name := by
  unfold namedVariable
  split <;> simp [mention]

/-- A symbol that stands for itself in a new session does so in every session. -/
theorem atom_symbol_of_start {cs : List Char} {name : String}
    (hbase : sameIgnoringCase cs "base".toList = false) (h : (atom cs {}).1 = .symbol name)
    (m : Memory) : atom cs m = (.symbol (String.ofList cs), m) := by
  unfold atom at h ⊢
  simp only [hbase, Bool.false_eq_true, if_false] at h ⊢
  -- Each test but those of blank nodes and variables is of the text alone, so it fails as before.
  split at h
  · next hdot => rw [if_pos hdot]
  next hdot =>
  split at h
  · cases h
  next ha =>
  split at h
  · cases h
  next hnil =>
  split at h
  · cases h
  next htrue =>
  split at h
  · cases h
  next hfalse =>
  split at h
  · cases h
  next hdouble =>
  split at h
  · cases h
  next hdecimal =>
  split at h
  · cases h
  next hdigits =>
  rw [if_neg hdot, if_neg ha, if_neg hnil, if_neg htrue, if_neg hfalse, if_neg hdouble,
    if_neg hdecimal, if_neg hdigits]
  cases hblank : after? ['_', ':'] cs with
  | some id =>
    rw [hblank] at h
    exact absurd h (blankNode_start_ne _ name)
  | none =>
    rw [hblank] at h
    cases hvar : queryVar? cs with
    | some v =>
      simp only [hvar] at h
      exact absurd h (namedVariable_start_ne v name)
    | none => rfl

/-- A symbol is read back as it was written, if it stands for itself. -/
theorem readsEqual_symbol (hm : Ready vars m) {name : String} (h : IsSymbol name) (room : Nat) :
    ReadsEqual vars room m (Symbol.written .sparql name.toList) (.symbol name) := by
  have hself : (Value.symbol name).eq (.symbol name) = true := by
    rw [Value.eq]
    exact beq_self_eq_true name
  -- The two operators begin with an angle bracket; any other symbol is a literal.
  rcases h with rfl | rfl | ⟨hangle, hbars, hbase, hpre, hatom⟩
  · refine ⟨_, m, readsLeaf_of_token (by decide) (by decide) fun rest hrest => ?_, hself, hm⟩
    have hstop := Lexicon.isAtomChar_of_delimits (l := lexicon) (by decide) hrest
    exact yields_token_of_tokenWith fun _ => yields_tokenWith_less m hstop
  · refine ⟨_, m, readsLeaf_of_token (by decide) (by decide) fun rest hrest => ?_, hself, hm⟩
    exact yields_token_of_tokenWith fun _ => yields_tokenWith_lessEqual m rest
  · refine ⟨_, m, ?_, hself, hm⟩
    rw [Symbol.written, hbars]
    rw [Symbol.needsBars_eq_false_iff] at hbars
    cases hcs : name.toList with
    | nil => exact absurd hcs hbars.ne_nil
    | cons c cs =>
      have hfirst := hbars.first c (by simp [hcs])
      have hmeaning : meaning name.toList m = (.symbol name, m) := by
        rw [meaning, atom_symbol_of_start hbase hatom, String.ofList_toList]
        show symbol name.toList m = _
        rw [hm.symbol_eq hpre, String.ofList_toList]
      have hall := hbars.all_isAtomChar lexicon.brackets
      rw [hcs] at hmeaning hall hangle
      have h := readsLeaf_literal hall (by simp_all) room m
      rw [hmeaning] at h
      exact h

end Leaves

/-! ## Documents -/

/-- No list of such leaves begins a form that changes the abbreviations. -/
theorem forBody_eq_none {ab : Abbreviations} {items : List Value}
    (h : ∀ v ∈ items, IsLeaf v ∨ ∃ vs, v = .list vs) : ab.forBody items = none := by
  have hhead (head : String) (rest : List Value) (heq : items = .symbol head :: rest) :
      head ≠ "base" ∧ head ≠ "prefix" := by
    have hleaf : IsSymbol head := by
      rcases h (.symbol head) (by simp [heq]) with hleaf | ⟨vs, hvs⟩
      · exact hleaf
      · cases hvs
    rcases hleaf with rfl | rfl | ⟨-, -, hbase, hpre, -⟩
    · decide
    · decide
    · constructor
      · rintro rfl
        exact absurd hbase (by decide)
      · rintro rfl
        exact absurd hpre (by decide)
  unfold Abbreviations.forBody
  split
  · next head _ _ _ _ => rw [if_neg (hhead head _ rfl).1]
  · next head _ _ _ => rw [if_neg (hhead head _ rfl).2]
  · rfl

/-- Leaves whose variables are among `vars`. -/
def LeafWithin (vars : Variable → Prop) (v : Value) : Prop :=
  IsLeaf v ∧ ∀ t ∈ v.terms, ∀ n w, t = .term n (.var w) → vars w

/-- **The leaves are read back** as equal ones, each by the kind that it is of. -/
theorem readsEqual_leaf {vars : Variable → Prop} {m : Memory} (hm : Ready vars m)
    (hvars : ∀ v w, vars v → vars w → v.name = w.name → v = w) {v : Value}
    (hv : LeafWithin vars v) (room : Nat) :
    ReadsEqual vars room m (v.compact .sparql {}) v := by
  cases v with
  | list items => exact hv.1.elim
  | vector items => exact hv.1.elim
  | atom a =>
    cases a with
    | nil =>
      refine ⟨.nil, m, ?_, by rw [Value.eq]; rfl, hm⟩
      exact readsLeaf_atom (by decide) (by decide) (atom_nil m) (by simp) room
    | symbol name => exact readsEqual_symbol hm hv.1 room
    | bool b => exact hv.1.elim
    | char c => exact hv.1.elim
    | string text quote => exact hv.1.elim
    | number n => exact hv.1.elim
  | term n t =>
    rw [Value.compact]
    cases t with
    | iri i => exact readsEqual_iri hm hv.1 room n
    | literal l => exact readsEqual_literal hm hv.1 room n
    | blank b => exact readsEqual_blank hm hv.1 room n
    | var v =>
      -- Only here does it matter that variables of one name agree.
      have hmem := hv.2 (.term n (.var v)) (by simp [Value.terms]) n v rfl
      exact readsEqual_var hm hvars hv.1 hmem room n

/-- What a session has remembered from the leaves before makes no difference to the later ones, as
long as no base and no prefix is defined on the way. -/
theorem readsBack {vars : Variable → Prop}
    (hvars : ∀ v w, vars v → vars w → v.name = w.name → v = w) :
    ReadsBack sparql brackets .sparql (LeafWithin vars) (· = {}) (Ready vars)
      (fun v w => w.eq v = true) (fun vs ws => Value.eqAll ws vs = true) where
  opens h := h.opens
  closes h := h.closes
  scope {ab items} hab h i := by
    -- The items define nothing, so that nothing is abbreviated in the list either.
    rw [Abbreviations.scope, forBody_eq_none fun v hv => (h v hv).imp_left (·.1)]
    exact hab
  leaf {room m ab v} hm hab hv := by
    subst hab
    obtain ⟨w, m', hw, heq, hm'⟩ := readsEqual_leaf hm hvars hv room
    refine ⟨w, m', ?_, heq, hm'⟩
    -- A leaf is no list, so its box is its text.
    cases v with
    | list items => exact hv.1.elim
    | vector items => exact hv.1.elim
    | atom a =>
      rw [Value.box]
      exact .leaf hw
    | term n t =>
      rw [Value.box]
      exact .leaf hw
  nil := by rw [Value.eqAll]
  cons h hs := by rw [Value.eqAll, h, hs, Bool.and_self]
  list hs := by rw [Value.eq, hs]

/-- **SPARQL terms are read back** as equal ones by a new session, whatever the layout of the text,
if variables of one name agree. -/
theorem parse_formatAll_terms (layout : Layout) (vs : List Value)
    (hvs : ∀ v ∈ vs, v.Built IsLeaf 500)
    (hvars : ∀ n k v w, .term n (.var v) ∈ Value.termsAll vs →
      .term k (.var w) ∈ Value.termsAll vs → v.name = w.name → v = w) :
    ∃ ws, parse sparql {} (String.ofList (Value.formatAll layout .sparql {} vs)) = .ok ws ∧
      Value.eqAll ws vs = true := by
  -- The variables that the values mention are those that the session has to know.
  let vars (v : Variable) : Prop := ∃ n, .term n (.var v) ∈ Value.termsAll vs
  have hagree : ∀ v w, vars v → vars w → v.name = w.name → v = w := by
    rintro v w ⟨n, hn⟩ ⟨k, hk⟩
    exact hvars n k v w hn hk
  have hleaves : ∀ v ∈ vs, v.Built (LeafWithin vars) 500 := by
    intro v hv
    refine (hvs v hv).and (p := fun v => ∀ t ∈ v.terms, ∀ n w, t = .term n (.var w) → vars w) ?_ ?_
    · intro items hlist v hv t ht
      rw [Value.terms] at hlist
      exact hlist t (Value.mem_termsAll.mpr ⟨v, hv, ht⟩)
    · rintro t ht n w rfl
      exact ⟨n, Value.mem_termsAll.mpr ⟨v, hv, ht⟩⟩
  exact (readsBack hagree).parse layout {} hleaves .start rfl

theorem parse_formatAll_terms_filter :
    ∃ ws, parse sparql {} (String.ofList (Value.formatAll {} .sparql {}
        [.list [.symbol "<", .term 0 (.var { name := "x" }),
          .term 1 (.literal (.xsd "5" "integer")),
          .term 2 (.iri { text := "http://a/b" })]])) = .ok ws ∧
      Value.eqAll ws [.list [.symbol "<", .term 0 (.var { name := "x" }),
        .term 1 (.literal (.xsd "5" "integer")),
        .term 2 (.iri { text := "http://a/b" })]] = true := by
  refine parse_formatAll_terms {} _ (fun v hv => ?_) fun n k v w hv hw _ => ?_
  · rw [List.mem_singleton] at hv
    subst hv
    refine .list fun v hv => .leaf ?_
    simp only [List.mem_cons, List.not_mem_nil, or_false] at hv
    rcases hv with rfl | rfl | rfl | rfl
    · exact .inl rfl
    · exact ⟨⟨by decide, by decide⟩, by simp⟩
    · exact .inr ⟨rfl, by decide, 'h', _, rfl, by decide, by decide⟩
    · exact .inr ⟨rfl, by decide, 'h', _, rfl, by decide, by decide⟩
  · simp [Value.termsAll, Value.terms] at hv hw
    rw [hv.2, hw.2]

end SExpr.Dialect.Sparql
