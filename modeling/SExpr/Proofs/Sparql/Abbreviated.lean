import SExpr.Proofs.Completion
import SExpr.Proofs.Sparql.Written

/-!
# Abbreviated IRIs are read back

An IRI that was not written by anyone is abbreviated by the table of namespaces or by the base. A
session with the same table reads the prefixed name as that IRI. A session with the same base does
so with the relative reference if resolution keeps the base as it is, and the character after the
angle bracket does not make an operator of it.

* **`ReadsIri`**: all that a session reads from a text is one IRI.
* **`readAll_prefixedName`**: prefixed names are read back.
* **`Completes`**, **`readAll_relative_iff`**: which relative references are read back.
-/

namespace SExpr.Dialect.Sparql

open ReadM Text Reference

/-- All that a new session with these abbreviations reads from the text is an IRI equal to `i`, and
`s` is what becomes of the session. -/
def ReadsIri (ab : Abbreviations) (text : List Char) (i : Iri) (s : Session Memory) : Prop :=
  ∃ h j, sparql.readAll (.start (.ofString (String.ofList text)) { abbreviations := ab })
    = .ok [.term h (.iri j)] s ∧ j.eq i = true

/-! ## Texts of one token -/

section Takes

variable {ab : Abbreviations} {text left : List Char} {w : Value} {m m' : Memory}

theorem Takes.readsLeaf (h : Takes m text w m' []) (hopens : Opens text) (room : Nat) :
    sparql.ReadsLeaf room m text w m' :=
  ⟨hopens.leads, fun rest _ => hopens.stands _ rest, fun _ hrest => h.yields_token hrest⟩

/-- A text that is taken whole is a document of one value. -/
theorem Takes.readAll (h : Takes m text w m' []) (hopens : Opens text) :
    ∃ s, sparql.readAll (.start (.ofString (String.ofList text)) m) = .ok [w] s ∧
      s.memory = m' := by
  obtain ⟨c', -, hread⟩ := (h.readsLeaf hopens _).readAll brackets _ rfl (before_start text m)
  exact ⟨_, hread, rfl⟩

/-- Whatever follows the first token, it is the first one read. -/
theorem Takes.head?_readAll (h : Takes m text w m' left) (hopens : Opens text) {vs : List Value}
    {s : Session Memory}
    (hread : sparql.readAll (.start (.ofString (String.ofList text)) m) = .ok vs s) :
    vs.head? = some w := by
  let start : Session Memory := .start (.ofString (String.ofList text)) m
  have hitem : Yields (sparql.item (sparql.nested start.room)) m text (.value w) m' left := by
    have hstands := hopens.stands (sparql.nested start.room) [] [] m rfl
    have htoken : Yields token m (text ++ []) (.value w) m' (left ++ []) :=
      h.yields_token (by simp [Delimits])
    rw [List.append_nil] at hstands htoken
    rw [List.append_nil] at htoken
    exact hstands.bind (.here fun p => htoken.bind (.pure _ _ _))
  exact ensures_readAll_of_yields start hitem rfl (before_start text m) vs s hread

end Takes

/-! ## Prefixed names -/

/-- A name that can stand before a colon: the text is then a literal, and neither a blank node nor a
variable. -/
structure IsPrefixName (name : String) : Prop where
  all_isAtomChar : name.toList.all lexicon.isAtomChar = true
  colon : ':' ∉ name.toList
  ne_blank : name ≠ "_"
  first : ∀ c ∈ name.toList.head?, c ∉ ['"', '\'', '<', ';', '#', '?', '$']

/-- No local name begins with a number sign. -/
theorem head?_of_isLocalName {rest : List Char} (h : isLocalName rest = true) :
    rest.head? ≠ some '#' := by
  intro hhead
  cases rest with
  | nil => cases hhead
  | cons c rest =>
    cases hhead
    have hsharp : isAlphanumeric '#' = false := by decide +kernel
    simp [isLocalName, hsharp] at h

/-- An entry of a table is found by its name, if names are not used twice. -/
theorem find?_of_mem {table : Namespaces} (htable : (table.map Prod.fst).Nodup)
    {e : String × String} (he : e ∈ table) : table.find? e.1 = some e.2 := by
  unfold Namespaces.find?
  induction table with
  | nil => cases he
  | cons d table ih =>
    rw [List.map_cons, List.nodup_cons] at htable
    rcases List.mem_cons.mp he with rfl | he
    · exact List.lookup_cons_self
    · have hne : e.1 ≠ d.1 := by
        intro heq
        exact htable.1 (heq ▸ List.mem_map_of_mem he)
      rw [List.lookup_cons, beq_eq_false_iff_ne.mpr hne]
      exact ih htable.2 he

section PrefixedName

variable {name : String} {rest : List Char}

/-- A prefixed name is a word. -/
theorem IsPrefixName.isWord (hname : IsPrefixName name) (hrest : isLocalName rest = true) :
    IsWord [';', '#'] (name.toList ++ ':' :: rest) := by
  have hless : name.toList.head? ≠ some '<' := by
    intro hhead
    exact hname.first '<' hhead (by decide)
  have hshort : IsShort name := by
    refine ⟨hname.all_isAtomChar, fun c hc hmem => ?_, fun hhead => absurd hhead hless⟩
    have hall : ∀ d ∈ ['"', '\'', ';', '#'], d ∈ ['"', '\'', '<', ';', '#', '?', '$'] :=
      List.all_iff_forall_prop.mp (by decide)
    exact hname.first c hc (hall c hmem)
  exact isWord_prefixed (fun c hc => hc) hshort hless hrest

/-- The colon keeps the text from being a word or a numeral, and the name from being a blank node or
a variable. -/
theorem IsPrefixName.atom_eq (hname : IsPrefixName name) (rest : List Char) (m : Memory) :
    atom (name.toList ++ ':' :: rest) m
      = (.symbol (String.ofList (name.toList ++ ':' :: rest)), m) := by
  have hmem : ':' ∈ name.toList ++ ':' :: rest := by simp
  have hcut := cutAt_append hname.colon rest
  -- A blank node would have the underscore for its prefix.
  have hblank : after? ['_', ':'] (name.toList ++ ':' :: rest) = none := by
    rw [Option.eq_none_iff_forall_ne_some]
    intro id hid
    have hcut' : cutAt ':' (['_'] ++ ':' :: id) = (['_'], some id) := cutAt_append (by decide) id
    rw [eq_append_of_after? hid] at hcut
    have heq : ['_'] = name.toList := congrArg Prod.fst (hcut'.symm.trans hcut)
    exact hname.ne_blank (String.toList_inj.mp heq.symm)
  have hvar : queryVar? (name.toList ++ ':' :: rest) = none := by
    cases hcs : name.toList with
    | nil => exact queryVar?_cons_eq_none (by decide) rest
    | cons c cs =>
      have hfirst := hname.first c (by rw [hcs]; rfl)
      exact queryVar?_cons_eq_none (by simp_all) _
  -- No numeral and none of the words has a colon in it.
  have hnumeral := Numeral.isNumeral_eq_false (c := ':') (by decide) hmem
  rw [atom_of_no_word, wordless]
  · simp [hnumeral, hblank, hvar]
  · intro heq
    rw [heq] at hmem
    exact absurd hmem (by decide)
  · intro heq
    rw [heq] at hmem
    exact absurd hmem (by decide)
  · have hwords : ∀ word ∈ ["base", "nil", "true", "false"],
        ':'.toLower ∉ word.toList.map Char.toLower := by decide
    exact fun word hword => sameIgnoringCase_eq_false_of_mem hmem (hwords word hword)

/-- A symbol with a prefix of the table is an IRI. -/
theorem symbol_prefixed {m : Memory} {iri : String} (hcolon : ':' ∉ name.toList)
    (hregion : m.region = none) (hfind : m.abbreviations.namespaces.find? name = some iri)
    (hrest : rest.head? ≠ some '#') :
    symbol (name.toList ++ ':' :: rest) m
      = mention (.iri { text := iri ++ String.ofList rest,
                        lexical := some (String.ofList (name.toList ++ ':' :: rest)) }) m := by
  have hpre : sameIgnoringCase (name.toList ++ ':' :: rest) "prefix".toList = false :=
    sameIgnoringCase_eq_false_of_mem (c := ':') (by simp) (by decide)
  have hsharp : after? ['#'] rest = none := by
    cases rest with
    | nil => rfl
    | cons c rest =>
      have hc : '#' ≠ c := fun hc => hrest (by rw [hc]; rfl)
      rw [after?, if_neg hc]
  unfold symbol
  simp only [hregion, hpre, cutAt_append hcolon, String.ofList_toList, hfind, hsharp,
    Option.isSome_none, Option.getD_none, Bool.false_and, Bool.false_eq_true, if_false, ite_self]

end PrefixedName

/-- **Prefixed names are read back** by a session with the same namespaces, which it keeps. -/
theorem readAll_prefixedName {table : Namespaces} (htable : (table.map Prod.fst).Nodup)
    (hnames : ∀ e ∈ table, IsPrefixName e.1) {iri : String} {text : List Char}
    (h : ({ text := iri } : Iri).prefixedName? table = some text) :
    ({ text := iri } : Iri).written { namespaces := table } = text ∧
      ∃ s, ReadsIri { namespaces := table } text { text := iri } s ∧
        s.memory.abbreviations = { namespaces := table } := by
  refine ⟨by simp [Iri.written, h], ?_⟩
  obtain ⟨e, he, rest, rfl, hrest, htext⟩ := prefixedName?_eq_some h
  have hname := hnames e he
  let m : Memory := { abbreviations := { namespaces := table } }
  -- The name is found in the table, and what it stands for is put before the local name.
  have hmeaning : meaning (e.1.toList ++ ':' :: rest) m
      = mention (.iri { text := e.2 ++ String.ofList rest,
                        lexical := some (String.ofList (e.1.toList ++ ':' :: rest)) }) m := by
    rw [meaning, hname.atom_eq, classify, String.toList_ofList]
    exact symbol_prefixed hname.colon rfl (find?_of_mem htable he) (head?_of_isLocalName hrest)
  have hword := hname.isWord hrest
  obtain ⟨s, hread, hs⟩ := (takes_word hword m).readAll hword.opens
  rw [hmeaning] at hread hs
  refine ⟨s, ⟨_, _, hread, ?_⟩, by rw [hs]; rfl⟩
  rw [Iri.eq, decide_eq_true_eq, ← String.toList_inj, String.toList_append, String.toList_ofList]
  exact htext.symm

theorem readAll_prefixedName_longest :
    let table : Namespaces := [("", "http://a/"), ("ex", "http://a/b#")]
    (table.map Prod.fst).Nodup ∧ (∀ e ∈ table, IsPrefixName e.1) ∧
      ({ text := "http://a/b#c" } : Iri).prefixedName? table = some "ex:c".toList ∧
      ({ text := "http://a/b#c" } : Iri).written { namespaces := table } = "ex:c".toList ∧
      ∃ s, ReadsIri { namespaces := table } "ex:c".toList { text := "http://a/b#c" } s ∧
        s.memory.abbreviations = { namespaces := table } := by
  intro table
  have htable : (table.map Prod.fst).Nodup := by decide
  have hnames : ∀ e ∈ table, IsPrefixName e.1 := by
    intro e he
    simp only [table, List.mem_cons, List.not_mem_nil, or_false] at he
    rcases he with rfl | rfl
    · exact ⟨by decide, by decide, by decide, by simp⟩
    · exact ⟨by decide, by decide, by decide, by simp⟩
  have h : ({ text := "http://a/b#c" } : Iri).prefixedName? table = some "ex:c".toList := by
    decide +kernel
  exact ⟨htable, hnames, h, readAll_prefixedName htable hnames h⟩

/-! ## Relative references -/

/-- What follows the base in an IRI is read as that IRI again: it is a fragment; or it is a segment
that leaves the angle bracket before it alone, and the base ends in a path that resolution keeps,
with no query after it. -/
def Completes (base rest : List Char) : Prop :=
  rest.head? = some '#' ∨
    (∀ c ∈ rest.head?, lexicon.isAtomChar c = true ∧ c ≠ '=') ∧ '?' ∉ base ∧
      (split base).path ≠ [] ∧ IsDotless (split base).path

/-- The two kinds of references that IRIs are abbreviated to. -/
theorem isRelativeRest_cases {base rest : List Char} (h : Iri.isRelativeRest base rest = true) :
    base.getLast? = some '/' ∧ IsSegment rest ∨ ∃ cs, rest = '#' :: cs := by
  rw [Iri.isRelativeRest, Bool.or_eq_true] at h
  rcases h with h | h
  · simp only [Bool.and_eq_true, beq_iff_eq, Bool.not_eq_true', bne_iff_ne,
      List.all_eq_true] at h
    obtain ⟨⟨⟨hbase, hempty⟩, hdot⟩, hall⟩ := h
    refine .inl ⟨hbase, fun hnil => ?_, fun c hc hmem => ?_, ?_⟩
    · simp [hnil] at hempty
    · have hsub : ∀ d ∈ ['/', '?', '#', ':'], "/?#:<>".toList.contains d = true :=
        List.all_iff_forall_prop.mp (by decide)
      have hc := hall c hc
      rw [hsub c hmem, Bool.or_true] at hc
      cases hc
    · constructor <;> rintro rfl <;> exact hdot rfl
  · rw [Bool.and_eq_true, beq_iff_eq] at h
    cases rest with
    | nil => cases h.1
    | cons c cs =>
      cases h.1
      exact .inr ⟨cs, rfl⟩

section Relative

variable {base iri : String} {rest : List Char}

/-- A reference in angle brackets is read as what it means under the base. -/
theorem exists_readsIri_iff (hraw : IsRaw rest) (hrelative : isRelative rest = true) :
    (∃ s, ReadsIri { base := some base } ('<' :: (rest ++ ['>'])) { text := iri } s) ↔
      resolve base.toList rest = iri.toList := by
  let m : Memory := { abbreviations := { base := some base } }
  obtain ⟨s, hread, -⟩ := (takes_raw hraw m []).readAll (opens_less _)
  obtain ⟨n, hn⟩ := iri_fst rest m
  have hresolved : (resolved (some base) rest).text = String.ofList (resolve base.toList rest) := by
    simp [resolved, hrelative]
  have heq : (resolved (some base) rest).eq { text := iri } = true ↔
      resolve base.toList rest = iri.toList := by
    rw [Iri.eq, decide_eq_true_eq, hresolved, ← String.toList_inj, String.toList_ofList]
  rw [hn] at hread
  rw [← heq]
  constructor
  · rintro ⟨s', h, j, hread', hj⟩
    rw [hread] at hread'
    cases hread'
    exact hj
  · exact fun h => ⟨s, n, _, hread, h⟩

/-- A text that begins with an operator is not read as an IRI. -/
theorem not_readsIri_of_takes {ab : Abbreviations} {text left : List Char} {name : String}
    {m' : Memory} (h : Takes { abbreviations := ab } text (.symbol name) m' left)
    (hopens : Opens text) (i : Iri) (s : Session Memory) : ¬ ReadsIri ab text i s := by
  rintro ⟨n, j, hread, -⟩
  cases h.head?_readAll hopens hread

/-- A segment whose first character makes an operator of the angle bracket. -/
theorem exists_takes_operator (hne : rest ≠ [])
    (hfirst : ¬ ∀ c ∈ rest.head?, lexicon.isAtomChar c = true ∧ c ≠ '=') (m : Memory) :
    ∃ name left, Takes m ('<' :: (rest ++ ['>'])) (.symbol name) m left := by
  cases rest with
  | nil => exact absurd rfl hne
  | cons c cs =>
    by_cases heq : c = '='
    · subst heq
      exact ⟨_, _, takes_lessEqual m (cs ++ ['>'])⟩
    · have hless : ∀ d ∈ (c :: cs ++ ['>']).head?, lexicon.isAtomChar d = false := by
        simpa [heq] using hfirst
      exact ⟨_, _, takes_less m hless⟩

/-- A fragment after its base is read back. -/
theorem exists_readsIri_fragment {cs : List Char} (hsharp : '#' ∉ base.toList)
    (htext : iri.toList = base.toList ++ '#' :: cs) (hclose : '>' ∉ '#' :: cs) :
    ∃ s, ReadsIri { base := some base } ('<' :: ('#' :: cs ++ ['>'])) { text := iri } s := by
  have hraw : IsRaw ('#' :: cs) := isRaw_cons (by decide) (by decide) hclose
  rw [exists_readsIri_iff hraw (isRelative_sharp cs), resolve_fragment,
    List.takeWhile_eq_self_iff.mpr (bne_of_not_mem hsharp), htext]

/-- A segment is read back if it is no operator, and means the base and itself. -/
theorem exists_readsIri_segment_iff (hbase : base.toList.getLast? = some '/')
    (hsharp : '#' ∉ base.toList) (hsegment : IsSegment rest)
    (htext : iri.toList = base.toList ++ rest) (hclose : '>' ∉ rest) :
    (∃ s, ReadsIri { base := some base } ('<' :: (rest ++ ['>'])) { text := iri } s) ↔
      (∀ c ∈ rest.head?, lexicon.isAtomChar c = true ∧ c ≠ '=') ∧ '?' ∉ base.toList ∧
        (split base.toList).path ≠ [] ∧ IsDotless (split base.toList).path := by
  by_cases hfirst : ∀ c ∈ rest.head?, lexicon.isAtomChar c = true ∧ c ≠ '='
  · have hraw : IsRaw rest := by
      refine ⟨hclose, fun c hc => hfirst c ?_⟩
      cases rest with
      | nil => exact absurd rfl hsegment.ne_nil
      | cons d ds => exact hc
    rw [exists_readsIri_iff hraw hsegment.isRelative, htext,
      resolve_segment_iff hbase hsharp hsegment, and_iff_right hfirst]
  · obtain ⟨name, left, htakes⟩ := exists_takes_operator hsegment.ne_nil hfirst
      { abbreviations := { base := some base } }
    refine iff_of_false ?_ fun h => hfirst h.1
    rintro ⟨s, hs⟩
    exact not_readsIri_of_takes htakes (opens_less _) _ s hs

end Relative

/-- **Relative references are read back** by a session with the same base if and only if what
follows the base completes it. -/
theorem readAll_relative_iff {base iri : String} {text : List Char} (hclose : '>' ∉ iri.toList)
    (h : ({ text := iri } : Iri).relative? (some base) = some text) :
    ({ text := iri } : Iri).written { base := some base } = text ∧
      ∃ rest, iri.toList = base.toList ++ rest ∧ text = '<' :: (rest ++ ['>']) ∧
        ((∃ s, ReadsIri { base := some base } text { text := iri } s) ↔
          Completes base.toList rest) := by
  refine ⟨by simp [Iri.written, Iri.prefixedName?, Iri.bestNamespace?, h], ?_⟩
  obtain ⟨_, ⟨⟩, hsharp, rest, rfl, hrest, htext⟩ := relative?_eq_some h
  refine ⟨rest, htext, rfl, ?_⟩
  have hclose : '>' ∉ rest := by
    intro hmem
    apply hclose
    simp [htext, hmem]
  -- What follows the base is one segment, or a fragment, which is always read back.
  rcases isRelativeRest_cases hrest with ⟨hbase, hsegment⟩ | ⟨cs, rfl⟩
  · have hhead : rest.head? ≠ some '#' := by
      intro hhead
      exact hsegment.not_mem '#' (by decide) (List.mem_of_mem_head? hhead)
    rw [exists_readsIri_segment_iff hbase hsharp hsegment htext hclose, Completes,
      or_iff_right hhead]
  · exact iff_of_true (exists_readsIri_fragment hsharp htext hclose) (.inl rfl)

theorem readAll_relative_iff_segment :
    '>' ∉ "http://a/b".toList ∧
      ({ text := "http://a/b" } : Iri).relative? (some "http://a/") = some "<b>".toList ∧
      ({ text := "http://a/b" } : Iri).written { base := some "http://a/" } = "<b>".toList ∧
      ∃ rest, "http://a/b".toList = "http://a/".toList ++ rest ∧
        "<b>".toList = '<' :: (rest ++ ['>']) ∧
        ((∃ s, ReadsIri { base := some "http://a/" } "<b>".toList { text := "http://a/b" } s) ↔
          Completes "http://a/".toList rest) := by
  have hclose : '>' ∉ "http://a/b".toList := by decide
  have h : ({ text := "http://a/b" } : Iri).relative? (some "http://a/") = some "<b>".toList := by
    decide
  exact ⟨hclose, h, readAll_relative_iff hclose h⟩

/-- **An operator in an angle bracket**: what follows the base begins with an equals sign. -/
theorem readAll_relative_operator :
    '>' ∉ "http://a/=x".toList ∧
      ({ text := "http://a/=x" } : Iri).relative? (some "http://a/") = some "<=x>".toList ∧
      ¬ ∃ s, ReadsIri { base := some "http://a/" } "<=x>".toList { text := "http://a/=x" } s := by
  refine ⟨by decide, by decide, ?_⟩
  rintro ⟨s, hs⟩
  exact not_readsIri_of_takes (takes_lessEqual _ "x>".toList) (opens_less _) _ s hs

end SExpr.Dialect.Sparql
