import SExpr.Proofs.Output
import SExpr.Proofs.Reference
import SExpr.Proofs.Sparql.Token

/-!
# What a SPARQL reader returns

The values that a session reads are lists of nil, symbols and terms, and the texts that these keep
of how they were written are tokens again.

* **`IsRead`**: what a token of the dialect is.
* **`Memory.Sound`**: what a session remembers of such tokens.
* **`returns`**: every token is so, as long as what is remembered is sound.
-/

namespace SExpr.Dialect.Sparql

open ReadM Text

/-! ## Characters of literals -/

/-- The code points that are not part of literals: those of blanks and brackets. -/
def delimiterRanges : Ranges := blankRanges ++ [(0x28, 0x29), (0x5B, 0x5B), (0x5D, 0x5D)]

/-- No code point from `first` to `last` is a delimiter. -/
def isApart (first last : Int) : Bool :=
  delimiterRanges.all fun r => decide (last < r.1) || decide ((r.2 : Int) < first)

/-- What lies apart from the ranges of the delimiters can stand in a literal. -/
theorem isAtomChar_of_isApart {first last : Int} (h : isApart first last = true) {c : Char}
    (hfirst : first ≤ c.toNat) (hlast : c.toNat ≤ last) : lexicon.isAtomChar c = true := by
  have hapart : ∀ r ∈ delimiterRanges, c.toNat < r.1 ∨ r.2 < c.toNat := by
    intro r hr
    have hr := List.all_eq_true.mp h r hr
    simp only [Bool.or_eq_true, decide_eq_true_eq] at hr
    omega
  have hne (d : Char) (r : Nat × Nat) (hr : r ∈ delimiterRanges)
      (hd : r.1 ≤ d.toNat ∧ d.toNat ≤ r.2) : c ≠ d := by
    rintro rfl
    have := hapart r hr
    omega
  refine isAtomChar_of_not_mem ?_ ?_
  · rw [Bool.eq_false_iff]
    intro hblank
    rw [isBlank, Ranges.contains, List.any_eq_true] at hblank
    obtain ⟨r, hr, hc⟩ := hblank
    simp only [Bool.and_eq_true, decide_eq_true_eq] at hc
    have := hapart r (List.mem_append_left _ hr)
    omega
  · simp only [List.mem_cons, List.not_mem_nil, or_false, not_or]
    exact ⟨hne _ (0x28, 0x29) (by decide) (by decide), hne _ (0x28, 0x29) (by decide) (by decide),
      hne _ (0x5B, 0x5B) (by decide) (by decide), hne _ (0x5D, 0x5D) (by decide) (by decide)⟩

/-- So can every character of ranges that lie apart. -/
theorem isAtomChar_of_contains {ranges : Ranges} (h : ∀ r ∈ ranges, isApart r.1 r.2 = true)
    {c : Char} (hc : ranges.contains c = true) : lexicon.isAtomChar c = true := by
  rw [Ranges.contains, List.any_eq_true] at hc
  obtain ⟨r, hr, hc⟩ := hc
  simp only [Bool.and_eq_true, decide_eq_true_eq] at hc
  exact isAtomChar_of_isApart (h r hr) (by omega) (by omega)

/-- Letters and digits can stand in a literal. -/
theorem isAtomChar_of_isAlphanumeric {c : Char} (hc : isAlphanumeric c = true) :
    lexicon.isAtomChar c = true := by
  have hletter : ∀ r ∈ letterRanges, isApart r.1 r.2 = true := by decide +kernel
  have hnumeric : ∀ r ∈ numericRanges, isApart r.1 r.2 = true := by decide +kernel
  rw [isAlphanumeric, Bool.or_eq_true] at hc
  rcases hc with hc | hc
  · exact isAtomChar_of_contains hletter hc
  · exact isAtomChar_of_contains hnumeric hc

/-- A character that can stand in a literal can do so in lower case. -/
theorem isAtomChar_lowerChar {c : Char} (hc : lexicon.isAtomChar c = true) :
    lexicon.isAtomChar (lowerChar c) = true := by
  -- Lower case shifts whole runs of code points, and no run is shifted onto a delimiter.
  have hruns : ∀ r ∈ caseRuns, 0 ≤ (r.first : Int) + r.offset ∧
      isApart (r.first + r.offset) (r.last + r.offset) = true := by
    decide +kernel
  unfold lowerChar
  split
  · next r hr =>
    obtain ⟨hpos, hapart⟩ := hruns r (List.mem_of_find?_eq_some hr)
    have hrun := List.find?_some hr
    simp only [CaseRun.contains, Bool.and_eq_true, decide_eq_true_eq] at hrun
    unfold Char.ofNat
    split
    · next hvalid =>
      have htoNat : (Char.ofNatAux (c.toNat + r.offset).toNat hvalid).toNat
          = (c.toNat + r.offset).toNat := rfl
      refine isAtomChar_of_isApart hapart ?_ ?_
      · rw [htoNat]
        omega
      · rw [htoNat]
        omega
    · decide
  · exact hc

/-- A literal is one in lower case. -/
theorem all_isAtomChar_lowercase {cs : List Char} (h : cs.all lexicon.isAtomChar = true) :
    (lowercase cs).all lexicon.isAtomChar = true := by
  suffices hfrom : ∀ before, (lowerFrom before cs).all lexicon.isAtomChar = true from hfrom []
  induction cs with
  | nil => exact fun _ => rfl
  | cons c cs ih =>
    intro before
    rw [List.all_cons, Bool.and_eq_true] at h
    rw [lowerFrom, List.all_append, ih h.2, Bool.and_true, lowerBetween]
    split
    · split <;> decide
    split
    · decide
    · simpa using isAtomChar_lowerChar h.1

/-- The names made for terms without one are literals. -/
theorem all_isAtomChar_numbered (stem : String) (hstem : stem.toList.all lexicon.isAtomChar = true)
    (n : Nat) : s!"{stem}{n}".toList.all lexicon.isAtomChar = true := by
  have hdigits : ∀ c ∈ Nat.toDigits 10 n, lexicon.isAtomChar c = true := by
    intro c hc
    have hall : ∀ c ∈ Numeral.digitChars, lexicon.isAtomChar c = true :=
      List.all_eq_true.mp (by decide)
    have hdigit := List.all_eq_true.mp (Numeral.all_isDigit_toDigits n) c hc
    exact hall c (Numeral.mem_digitChars_of_isDigit hdigit)
  rw [Numeral.toList_numbered, List.all_append, hstem, Bool.true_and, List.all_eq_true]
  exact hdigits

/-! ## Tokens -/

/-- The text of a literal, where `starts` begin something else. -/
def IsWord (starts text : List Char) : Prop :=
  text ≠ [] ∧ text.all lexicon.isAtomChar = true ∧
    ∀ c ∈ text.head?, c ∉ ['"', '\'', '<'] ∧ c ∉ starts

/-- If the IRI keeps the text it was written as, that is a token. -/
def KeepsText (starts : List Char) (i : Iri) : Prop :=
  ∀ text, i.lexical = some text →
    IsWord starts text.toList ∨ ∃ raw, text.toList = '<' :: (raw ++ ['>']) ∧ IsRaw raw

/-- What a token is that begins with none of `starts`. -/
def IsRead (starts : List Char) : Value → Prop
  | .atom .nil => True
  | .atom (.symbol name) => name.toList.head? = some '<' → name = "<" ∨ name = "<="
  | .term _ (.iri i) => KeepsText starts i
  | .term _ (.literal l) =>
    (l.language = none ∨ l.datatype = none) ∧
      (∀ tag, l.language = some tag → tag.toList.all lexicon.isAtomChar = true) ∧
      ∀ i, l.datatype = some i → KeepsText [] i
  | .term _ (.blank b) => b.id.toList.all lexicon.isAtomChar = true
  | .term _ (.var v) => v.name.toList.all lexicon.isAtomChar = true
  | _ => False

/-! ## What is remembered -/

/-- The IRI that a text between angle brackets is. -/
def resolved (base : Option String) (raw : List Char) : Iri :=
  match base with
  | some base =>
    if Reference.isRelative raw then
      { text := String.ofList (Reference.resolve base.toList raw)
        lexical := some (String.ofList ('<' :: raw ++ ['>'])) }
    else { text := String.ofList raw }
  | none => { text := String.ofList raw }

theorem iri_fst (raw : List Char) (m : Memory) :
    ∃ n, (iri raw m).1 = .term n (.iri (resolved m.abbreviations.base raw)) := ⟨_, rfl⟩

/-- A resolved IRI keeps the text in brackets that it was read from. -/
theorem lexical_resolved {base : Option String} {raw : List Char} {text : String}
    (h : (resolved base raw).lexical = some text) : text.toList = '<' :: (raw ++ ['>']) := by
  unfold resolved at h
  split at h
  · split at h
    · rw [Option.some.injEq] at h
      rw [← h, String.toList_ofList]
      rfl
    · cases h
  · cases h

/-- A resolved IRI has no closing bracket, as neither the base nor the reference has one. -/
theorem not_mem_resolved {base : Option String} (hbase : ∀ b, base = some b → '>' ∉ b.toList)
    {raw : List Char} (hraw : '>' ∉ raw) : '>' ∉ (resolved base raw).text.toList := by
  have hplain : '>' ∉ (String.ofList raw).toList := by rwa [String.toList_ofList]
  unfold resolved
  split
  · next base =>
    split
    · intro hmem
      rw [String.toList_ofList] at hmem
      have hne : ∀ cs : List Char, '>' ∉ cs → ∀ c ∈ cs, c ≠ '>' := by
        rintro cs hcs c hc rfl
        exact hcs hc
      exact Reference.forall_mem_resolve (by simp) (hne _ (hbase base rfl)) (hne _ hraw) '>' hmem rfl
    · exact hplain
  · exact hplain

/-- The base can stand between angle brackets, and the names stand for terms whose names are
literals. -/
structure Memory.Sound (m : Memory) : Prop where
  base : ∀ base, m.abbreviations.base = some base → '>' ∉ base.toList
  blanks : ∀ id v, m.blanks.lookup id = some v →
    ∃ n b, v = .term n (.blank b) ∧ b.id.toList.all lexicon.isAtomChar = true
  vars : ∀ name v, m.vars.lookup name = some v →
    ∃ n w, v = .term n (.var w) ∧ w.name.toList.all lexicon.isAtomChar = true

namespace Memory.Sound

variable {m : Memory}

theorem start : Memory.Sound {} := by
  constructor <;> simp

theorem mention (h : m.Sound) (t : Term) : (mention t m).2.Sound :=
  ⟨h.base, h.blanks, h.vars⟩

theorem seen (h : m.Sound) (t : Token) : (m.seen t).Sound := by
  cases t <;> exact ⟨h.base, h.blanks, h.vars⟩

/-- A blank node has a name that can be written, whether it is given or made up. -/
theorem blankNode (h : m.Sound) {id : String} (hid : id.toList.all lexicon.isAtomChar = true) :
    (∃ n b, (blankNode id m).1 = .term n (.blank b) ∧ b.id.toList.all lexicon.isAtomChar = true) ∧
      (blankNode id m).2.Sound := by
  unfold Sparql.blankNode
  split
  · refine ⟨⟨_, _, rfl, ?_⟩, h.base, h.blanks, h.vars⟩
    exact all_isAtomChar_numbered "b" (by decide) _
  · cases hlookup : m.blanks.lookup id with
    | some v => exact ⟨h.blanks id v hlookup, h⟩
    | none =>
      refine ⟨⟨_, _, rfl, hid⟩, h.base, fun id' v hv => ?_, h.vars⟩
      simp only [Sparql.mention, List.lookup_cons] at hv
      split at hv
      · cases hv
        exact ⟨_, _, rfl, hid⟩
      · exact h.blanks id' v hv

/-- A variable has a name that can be written, whether it is given or made up. -/
theorem namedVariable (h : m.Sound) {v : Variable}
    (hv : v.name.toList.all lexicon.isAtomChar = true) :
    (∃ n w, (namedVariable v m).1 = .term n (.var w) ∧
      w.name.toList.all lexicon.isAtomChar = true) ∧ (namedVariable v m).2.Sound := by
  unfold Sparql.namedVariable
  split
  · refine ⟨⟨_, _, rfl, ?_⟩, h.base, h.blanks, h.vars⟩
    exact all_isAtomChar_numbered "_g" (by decide) _
  · cases hlookup : m.vars.lookup v.name with
    | some u => exact ⟨h.vars v.name u hlookup, h⟩
    | none =>
      refine ⟨⟨_, _, rfl, hv⟩, h.base, h.blanks, fun name u hu => ?_⟩
      simp only [Sparql.mention, List.lookup_cons] at hu
      split at hu
      · cases hu
        exact ⟨_, _, rfl, hv⟩
      · exact h.vars name u hu

/-- An IRI that is read closes no bracket, and so can be the base. -/
theorem iri (h : m.Sound) {raw : List Char} (hraw : '>' ∉ raw) : (iri raw m).2.Sound := by
  have htext := not_mem_resolved h.base hraw
  -- Only a base that was awaited changes, and it becomes the IRI that was read.
  have hiri : (Sparql.iri raw m).2.blanks = m.blanks ∧ (Sparql.iri raw m).2.vars = m.vars ∧
      ∀ base, (Sparql.iri raw m).2.abbreviations.base = some base →
        base = (resolved m.abbreviations.base raw).text ∨ m.abbreviations.base = some base := by
    obtain ⟨_, _, _, _, _, awaitedName, awaitsBase, _, _⟩ := m
    cases awaitsBase <;> cases awaitedName
    · exact ⟨rfl, rfl, fun base hb => .inr hb⟩
    · exact ⟨rfl, rfl, fun base hb => .inr hb⟩
    · exact ⟨rfl, rfl, fun base hb => .inl (Option.some.inj hb).symm⟩
    · exact ⟨rfl, rfl, fun base hb => .inl (Option.some.inj hb).symm⟩
  obtain ⟨hblanks, hvars, hbase⟩ := hiri
  refine ⟨fun base hb => ?_, by rw [hblanks]; exact h.blanks, by rw [hvars]; exact h.vars⟩
  rcases hbase base hb with rfl | hb
  · exact htext
  · exact h.base base hb

/-- A symbol may be looked up, which makes nothing unsound. -/
theorem symbol (h : m.Sound) (cs : List Char) : (symbol cs m).2.Sound := by
  unfold Sparql.symbol
  split
  · exact ⟨h.base, h.blanks, h.vars⟩
  split
  · exact ⟨h.base, h.blanks, h.vars⟩
  split
  · exact h
  split
  · exact h
  · exact h.mention _

end Memory.Sound

/-! ## What literals stand for -/

section Literals

variable {starts text : List Char} {m : Memory}

/-- The name of a variable is written after its sigil. -/
theorem mem_tail_of_queryVar? {v : Variable} (h : queryVar? text = some v) :
    ∀ c ∈ v.name.toList, c ∈ text.tail := by
  unfold queryVar? at h
  split at h
  · cases h
  · next sigil rest =>
    split at h
    · split at h
      · cases h
        simp
      · next d name =>
        split at h
        · cases h
          simp +contextual
        · cases h
          simp
    · cases h

/-- **The value of a literal**: a symbol of that text, or one of the other tokens. A single
character is enough, whatever it is. -/
theorem isRead_atom (htext : text.all lexicon.isAtomChar = true ∨ ∃ d, text = [d])
    (hhead : ∀ c ∈ text.head?, c ∉ ['"', '\'', '<'] ∧ c ∉ starts) (hm : m.Sound) :
    (atom text m).2.Sound ∧ ((atom text m).1 = .symbol (String.ofList text) ∨
      (∀ name, (atom text m).1 ≠ .symbol name) ∧ IsRead starts (atom text m).1) := by
  have htail : ∀ c ∈ text.tail, lexicon.isAtomChar c = true := by
    rcases htext with htext | ⟨d, rfl⟩
    · exact fun c hc => List.all_eq_true.mp htext c (List.mem_of_mem_tail hc)
    · simp
  have hliteral (value datatype : String) :
      IsRead starts (.term m.handles (.literal (.xsd value datatype))) :=
    ⟨.inl rfl, by simp [Literal.xsd], by simp [Literal.xsd, Iri.xsd, KeepsText]⟩
  generalize hr : atom text m = r
  simp only [atom] at hr
  split at hr
  · subst hr
    exact ⟨hm, .inl rfl⟩
  split at hr
  · next ha =>
    subst hr
    refine ⟨hm.mention _, .inr ⟨by simp [mention], ?_⟩⟩
    have hchars : text = ['a'] := by simpa using congrArg String.toList ha
    rintro word ⟨⟩
    refine .inl ⟨by simp, by decide, ?_⟩
    rwa [hchars] at hhead
  split at hr
  · subst hr
    exact ⟨⟨hm.base, hm.blanks, hm.vars⟩, .inl rfl⟩
  split at hr
  · subst hr
    exact ⟨hm, .inr ⟨by simp, trivial⟩⟩
  -- Booleans and numerals are literals of their text.
  split at hr
  · subst hr
    exact ⟨hm.mention _, .inr ⟨by simp [mention], hliteral _ _⟩⟩
  split at hr
  · subst hr
    exact ⟨hm.mention _, .inr ⟨by simp [mention], hliteral _ _⟩⟩
  split at hr
  · subst hr
    exact ⟨hm.mention _, .inr ⟨by simp [mention], hliteral _ _⟩⟩
  split at hr
  · subst hr
    exact ⟨hm.mention _, .inr ⟨by simp [mention], hliteral _ _⟩⟩
  split at hr
  · subst hr
    exact ⟨hm.mention _, .inr ⟨by simp [mention], hliteral _ _⟩⟩
  split at hr
  · next id hid =>
    subst hr
    have hchars : (String.ofList id).toList.all lexicon.isAtomChar = true := by
      rw [String.toList_ofList, List.all_eq_true]
      rw [eq_append_of_after? hid] at htail
      exact fun c hc => htail c (by simp [hc])
    obtain ⟨⟨n, b, hvalue, hb⟩, hsound⟩ := hm.blankNode hchars
    rw [hvalue]
    exact ⟨hsound, .inr ⟨by simp, hb⟩⟩
  split at hr
  · next v hv =>
    subst hr
    have hchars : v.name.toList.all lexicon.isAtomChar = true := by
      rw [List.all_eq_true]
      exact fun c hc => htail c (mem_tail_of_queryVar? hv c hc)
    obtain ⟨⟨n, w, hvalue, hw⟩, hsound⟩ := hm.namedVariable hchars
    rw [hvalue]
    exact ⟨hsound, .inr ⟨by simp, hw⟩⟩
  · subst hr
    exact ⟨hm, .inl rfl⟩

/-- **The meaning of a symbol**: itself, or an IRI that keeps the text. -/
theorem isRead_symbol (htext : text.all lexicon.isAtomChar = true ∨ ∃ d, text = [d])
    (hhead : ∀ c ∈ text.head?, c ∉ ['"', '\'', '<'] ∧ c ∉ starts) (m : Memory) :
    IsRead starts (symbol text m).1 := by
  have hself : IsRead starts (.symbol (String.ofList text)) := by
    intro h
    rw [String.toList_ofList] at h
    exact absurd (hhead _ h).1 (by decide)
  unfold symbol
  split
  · exact hself
  split
  · exact hself
  split
  · exact hself
  · next short rest hcut =>
    split
    · exact hself
    · -- A name with a prefix has a colon in it, so the text that is kept is a word.
      rintro word ⟨⟩
      rw [String.toList_ofList]
      have hcolon : ':' ∈ text := by
        rw [eq_append_of_cutAt hcut]
        simp
      refine .inl ⟨List.ne_nil_of_mem hcolon, ?_, hhead⟩
      rcases htext with htext | ⟨d, rfl⟩
      · exact htext
      · rw [List.mem_singleton] at hcolon
        subst hcolon
        decide

end Literals

/-! ## Tokens are read so -/

/-- What follows an opening angle bracket. -/
theorem ensures_angle (starts : List Char) (p : Pos) (s : Session Memory) (hs : s.memory.Sound) :
    Ensures (angle p) s fun v s' => s.Keeps Memory.Sound s' ∧ IsRead starts v := by
  refine (ensures_onCursor (Cursor.ensures_peek _)).bind fun r s₁ h₁ => ?_
  obtain ⟨hs₁, rfl, hunread⟩ := h₁
  have hkeeps₁ : s.Keeps Memory.Sound s₁ := .of_cursor hs₁ hs
  cases hcs : s.cursor.unread with
  | nil => exact .pure ⟨hkeeps₁, fun _ => .inl rfl⟩
  | cons c cs =>
    simp only [List.head?_cons]
    by_cases hc : lexicon.isAtomChar c = true
    · simp only [hc, Bool.not_true, Bool.false_eq_true, if_false]
      by_cases heq : c = '='
      · simp only [heq, if_true]
        refine (ensures_onCursor (Cursor.ensures_take? _)).bind fun _ s₂ h₂ => .pure ⟨?_, ?_⟩
        · exact hkeeps₁.trans (.of_cursor h₂.1 hkeeps₁.memory)
        · exact fun _ => .inr rfl
      · simp only [heq, if_false]
        refine (ensures_onCursor (Lexeme.ensures_bracketedIri p _)).bind fun raw s₂ h₂ => ?_
        obtain ⟨hs₂, hclose, rest, hraw⟩ := h₂
        have hkeeps₂ := hkeeps₁.trans (.of_cursor hs₂ hkeeps₁.memory)
        refine ensures_onMemory.mono fun v s₃ h₃ => ?_
        obtain ⟨rfl, rfl⟩ := h₃
        refine ⟨hkeeps₂.trans ⟨rfl, rfl, hkeeps₂.memory.iri hclose⟩, ?_⟩
        obtain ⟨n, hn⟩ := iri_fst raw s₂.memory
        rw [hn]
        refine fun text htext => .inr ⟨raw, lexical_resolved htext, hclose, fun d hd => ?_⟩
        -- The first character after the bracket is the one that was looked at.
        have hhead : (raw ++ ['>']).head? = some c := by
          rw [hunread, hcs] at hraw
          cases raw with
          | nil => exact congrArg some (List.cons.inj hraw).1.symm
          | cons e raw => exact congrArg some (List.cons.inj hraw).1.symm
        rw [hhead, Option.mem_some_iff] at hd
        exact hd ▸ ⟨hc, heq⟩
    · simp only [hc, Bool.not_false, if_true]
      exact .pure ⟨hkeeps₁, fun _ => .inl rfl⟩

/-- A literal in quotes, if its datatype is as it should be. -/
theorem ensures_quoted {datatype : ReadM Memory Iri} (starts : List Char)
    (hdatatype : ∀ s : Session Memory, s.memory.Sound →
      Ensures datatype s fun i s' => s.Keeps Memory.Sound s' ∧ KeepsText [] i)
    (s : Session Memory) (hs : s.memory.Sound) :
    Ensures (quoted datatype) s fun v s' => s.Keeps Memory.Sound s' ∧ IsRead starts v := by
  have hmention {s₁ : Session Memory} (h : s.Keeps Memory.Sound s₁) {t : Term}
      (ht : IsRead starts (.term s₁.memory.handles t)) :
      Ensures (onMemory (mention t)) s₁ fun v s' => s.Keeps Memory.Sound s' ∧ IsRead starts v := by
    refine ensures_onMemory.mono fun v s₂ h₂ => ?_
    obtain ⟨rfl, rfl⟩ := h₂
    exact ⟨h.trans ⟨rfl, rfl, h.memory.mention t⟩, ht⟩
  -- After the text, the next character tells whether there is a tag, a datatype or neither.
  refine (ensures_onCursor (P := fun _ _ => True) fun _ _ _ => trivial).bind ?_
  rintro ⟨text, quote⟩ s₁ ⟨hs₁, -⟩
  have hkeeps₁ : s.Keeps Memory.Sound s₁ := .of_cursor hs₁ hs
  refine (ensures_onCursor (Cursor.ensures_peek _)).bind fun r s₂ h₂ => ?_
  have hkeeps₂ := hkeeps₁.trans (.of_cursor h₂.1 hkeeps₁.memory)
  split
  · -- The tag is put in lower case.
    refine (ensures_onCursor (Cursor.ensures_take? _)).bind fun _ s₃ h₃ => ?_
    have hkeeps₃ := hkeeps₂.trans (.of_cursor h₃.1 hkeeps₂.memory)
    refine (ensures_onCursor (Lexeme.ensures_literal _ _)).bind fun tag s₄ h₄ => ?_
    have hkeeps₄ := hkeeps₃.trans (.of_cursor h₄.1 hkeeps₃.memory)
    refine hmention hkeeps₄ ⟨.inr rfl, ?_, by simp⟩
    rintro _ ⟨⟩
    rw [String.toList_ofList]
    apply all_isAtomChar_lowercase
    rw [h₄.2.1]
    exact List.all_takeWhile
  · -- The datatype is read as a token, after two marks.
    refine ensures_here fun p => (ensures_onCursor (Cursor.ensures_take? _)).bind fun _ s₃ h₃ => ?_
    have hkeeps₃ := hkeeps₂.trans (.of_cursor h₃.1 hkeeps₂.memory)
    refine (ensures_onCursor (Cursor.ensures_take _ _)).bind fun c s₄ h₄ => ?_
    have hkeeps₄ := hkeeps₃.trans (.of_cursor h₄.1 hkeeps₃.memory)
    by_cases hc : c = '^'
    · simp only [hc, if_true]
      refine (hdatatype s₄ hkeeps₄.memory).bind fun i s₅ h₅ => ?_
      refine hmention (hkeeps₄.trans h₅.1) ⟨.inl rfl, by simp, ?_⟩
      rintro _ ⟨⟩
      exact h₅.2
    · simp only [hc, if_false]
      exact ensures_fail
  · exact hmention hkeeps₂ ⟨.inl rfl, by simp, by simp⟩

/-- The datatype that a token is. -/
theorem ensures_datatype {token : ReadM Memory Token}
    (htoken : ∀ s : Session Memory, s.memory.Sound → Ensures token s fun t s' =>
      s.Keeps Memory.Sound s' ∧ ∀ v, t = .value v → IsRead [] v)
    (s : Session Memory) (hs : s.memory.Sound) :
    Ensures (datatype token) s fun i s' => s.Keeps Memory.Sound s' ∧ KeepsText [] i := by
  refine ensures_here fun p => (htoken s hs).bind fun t s₁ h₁ => ?_
  cases t with
  | ended => exact ensures_fail
  | opener b => exact ensures_fail
  | closer b => exact ensures_fail
  | value v =>
    have hv := h₁.2 v rfl
    dsimp only
    split
    · exact .pure ⟨h₁.1, hv⟩
    · exact .pure ⟨h₁.1, by simp [KeepsText]⟩
    · exact ensures_fail

/-- A token that begins neither a literal in quotes nor an IRI. -/
theorem ensures_basicToken {starts : List Char} {s : Session Memory}
    (hhead : ∀ c ∈ s.cursor.unread.head?, c ∉ ['"', '\'', '<'] ∧ c ∉ starts)
    (hs : s.memory.Sound) : Ensures lexicon.basicToken s fun t s' => s.Keeps Memory.Sound s' ∧
      ∀ v, t = .value v → (∀ name, v ≠ .symbol name) ∧ IsRead starts v ∨
        ∃ text, v = .symbol (String.ofList text) ∧
          (text.all lexicon.isAtomChar = true ∨ ∃ d, text = [d]) ∧
          ∀ c ∈ text.head?, c ∉ ['"', '\'', '<'] ∧ c ∉ starts := by
  refine Lexicon.ensures_basicToken (fun c t ht => ?_) (fun c d text quote hd hquote => ?_)
    fun c text p _ htext hchars _ => ?_
  · exact ⟨⟨rfl, rfl, hs⟩, fun v hv => absurd hv (ht v)⟩
  · have hd := (hhead d hd).1
    simp only [List.mem_cons, List.not_mem_nil, or_false, not_or] at hd
    rw [Quote.ofChar?, if_neg hd.1, if_neg hd.2.1] at hquote
    cases hquote
  · rw [← htext] at hhead
    have hchars : text.all lexicon.isAtomChar = true ∨ ∃ d, text = [d] := by
      rcases hchars with hall | ⟨d, hd, -⟩
      · exact .inl hall
      · exact .inr ⟨d, hd⟩
    show Ensures (onMemory (atom text)) { s with cursor := c } _
    refine ensures_onMemory.mono fun v s₁ h₁ => ?_
    obtain ⟨rfl, rfl⟩ := h₁
    obtain ⟨hsound, hvalue⟩ := isRead_atom hchars hhead hs
    refine ⟨⟨rfl, rfl, hsound⟩, ?_⟩
    rintro _ ⟨⟩
    rcases hvalue with hvalue | hvalue
    · exact .inr ⟨text, hvalue, hchars, hhead⟩
    · exact .inl hvalue

/-- A token that begins with none of `starts`, if the datatype of a literal is as it should be. -/
theorem ensures_tokenWith {datatype : ReadM Memory Iri} {starts : List Char}
    (hdatatype : ∀ s : Session Memory, s.memory.Sound →
      Ensures datatype s fun i s' => s.Keeps Memory.Sound s' ∧ KeepsText [] i)
    (s : Session Memory) (hs : s.memory.Sound)
    (hstarts : ∀ c ∈ s.cursor.unread.head?, c ∉ starts) :
    Ensures (tokenWith datatype) s fun t s' =>
      s.Keeps Memory.Sound s' ∧ ∀ v, t = .value v → IsRead starts v := by
  refine ensures_here fun p => (ensures_onCursor (Cursor.ensures_peek _)).bind fun r s₁ h₁ => ?_
  obtain ⟨hs₁, rfl, hunread⟩ := h₁
  have hkeeps₁ : s.Keeps Memory.Sound s₁ := .of_cursor hs₁ hs
  have hquoted : Ensures (quoted datatype >>= fun v => pure (Token.value v)) s₁ fun t s' =>
      s.Keeps Memory.Sound s' ∧ ∀ v, t = .value v → IsRead starts v := by
    refine (ensures_quoted starts hdatatype s₁ hkeeps₁.memory).bind fun v s₂ h₂ => .pure ?_
    refine ⟨hkeeps₁.trans h₂.1, ?_⟩
    rintro _ ⟨⟩
    exact h₂.2
  split
  · exact hquoted
  · exact hquoted
  · refine (ensures_onCursor (Cursor.ensures_take? _)).bind fun _ s₂ h₂ => ?_
    have hkeeps₂ := hkeeps₁.trans (.of_cursor h₂.1 hkeeps₁.memory)
    refine (ensures_angle starts p s₂ hkeeps₂.memory).bind fun v s₃ h₃ => .pure ?_
    refine ⟨hkeeps₂.trans h₃.1, ?_⟩
    rintro _ ⟨⟩
    exact h₃.2
  · next hdouble hsingle hangle =>
    -- What is left begins none of the three other kinds of token.
    have hhead : ∀ c ∈ s₁.cursor.unread.head?, c ∉ ['"', '\'', '<'] ∧ c ∉ starts := by
      rw [hunread]
      intro c hc
      refine ⟨?_, hstarts c hc⟩
      simp only [List.mem_cons, List.not_mem_nil, or_false, not_or]
      refine ⟨?_, ?_, ?_⟩
      · rintro rfl
        exact hdouble hc
      · rintro rfl
        exact hsingle hc
      · rintro rfl
        exact hangle hc
    refine Ensures.bind (ensures_basicToken hhead hkeeps₁.memory) fun t s₂ h₂ => ?_
    have hkeeps₂ := hkeeps₁.trans h₂.1
    refine ensures_onMemory.bind fun _ s₃ h₃ => ?_
    obtain ⟨-, rfl⟩ := h₃
    have hkeeps₃ : s.Keeps Memory.Sound { s₂ with memory := s₂.memory.seen t } :=
      hkeeps₂.trans ⟨rfl, rfl, hkeeps₂.memory.seen t⟩
    split
    · next name =>
      rcases h₂.2 _ rfl with ⟨hne, -⟩ | ⟨text, hname, htext, hhead⟩
      · exact absurd rfl (hne name)
      · refine ensures_onMemory.bind fun v s₄ h₄ => .pure ?_
        obtain ⟨rfl, rfl⟩ := h₄
        simp only [Value.atom.injEq, Atom.symbol.injEq] at hname
        rw [hname, String.toList_ofList]
        refine ⟨hkeeps₃.trans ⟨rfl, rfl, hkeeps₃.memory.symbol text⟩, ?_⟩
        rintro _ ⟨⟩
        exact isRead_symbol htext hhead _
    · next t hsymbol =>
      refine .pure ⟨hkeeps₃, ?_⟩
      rintro v rfl
      rcases h₂.2 _ rfl with ⟨-, hv⟩ | ⟨text, rfl, -⟩
      · exact hv
      · exact absurd rfl (hsymbol _)

/-- The allowance bounds how many datatypes can be within each other; each of them is read soundly.
-/
theorem ensures_tokenIn {γ : Type} {starts : List Char} (allowance : List γ) (s : Session Memory)
    (hs : s.memory.Sound) (hstarts : ∀ c ∈ s.cursor.unread.head?, c ∉ starts) :
    Ensures (tokenIn allowance) s fun t s' =>
      s.Keeps Memory.Sound s' ∧ ∀ v, t = .value v → IsRead starts v := by
  -- Datatypes nest as tokens in tokens, and the allowance goes down with each. A datatype may begin
  -- with what would begin a comment, so nothing is said of its first character.
  induction allowance generalizing starts s with
  | nil =>
    refine ensures_tokenWith (ensures_datatype fun s hs => .pure ?_) s hs hstarts
    exact ⟨.refl hs, by simp⟩
  | cons c allowance ih =>
    refine ensures_tokenWith (ensures_datatype fun s hs => ?_) s hs hstarts
    exact ih s hs (by simp)

/-- **What SPARQL tokens are.** -/
theorem returns : sparql.Returns [';', '#'] Memory.Sound (IsRead [';', '#']) where
  trivia _ s hs _ := by
    refine (ensures_onCursor (Lexeme.ensures_skipComments [';', '#'] _)).mono fun _ s' h => ?_
    exact ⟨.of_cursor h.1 hs, h.2⟩
  token _ s hs hbare := by
    refine ensures_tokenIn s.cursor.located s hs fun c hc => ?_
    have := (hbare c hc).2
    simpa using this

end SExpr.Dialect.Sparql
