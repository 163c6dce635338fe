import Mathlib
import SExpr.Proofs.Numeral
import SExpr.Proofs.Sparql.Terms

/-!
# Kinds of numerals

A literal may be tested for being a fraction, a decimal, a double, a special double or an integer.
It is at most one of these, for its characters tell which; so the tests can be made in any order.
Fractions are compared by value, however they are written, and exact numbers are read back from
what they are written as.

* **`Kind.told_of_holds`**: the characters tell the kind.
* **`Kind.find?_perm`**: the order in which kinds are tried does not matter.
* **`Fraction`**: a fraction as it is written; **`rational?_text`** and **`exists_fraction`** say
  that these are the texts that are taken for fractions.
* **`numerals_consistent`**: all of this together.
-/

namespace SExpr.Numeral

open Text Dialect.Sparql

/-! ## Kinds -/

inductive Kind where
  | fraction
  | decimal
  | double
  | special
  | integer
  deriving DecidableEq

namespace Kind

/-- The test for a kind. -/
def holds : Kind → List Char → Bool
  | fraction, cs => (rational? cs).isSome
  | decimal, cs => isDecimal cs
  | double, cs => isDouble cs
  | special, cs => (special? cs).isSome
  | integer, cs => isSignedDigits cs

/-- The only kind that a literal can be, to judge by its characters. -/
def told (cs : List Char) : Kind :=
  if '/' ∈ cs then fraction
  else if 'n' ∈ cs then special
  else if 'e' ∈ cs ∨ 'E' ∈ cs then double
  else if '.' ∈ cs then decimal
  else integer

theorem slash_mem {cs : List Char} (h : (rational? cs).isSome = true) : '/' ∈ cs := by
  by_contra hslash
  simp [rational?, cutAt_of_not_mem hslash] at h

/-- A decimal has a point. -/
theorem point_mem {cs : List Char} (h : isDecimal cs = true) : '.' ∈ cs := by
  by_contra hpoint
  have hdigits : '.' ∉ (cutSign cs).2 := by
    intro hmem
    cases cs with
    | nil => cases hmem
    | cons c cs =>
      rw [cutSign] at hmem
      split at hmem
      · exact hpoint (List.mem_cons_of_mem c hmem)
      · split at hmem
        · exact hpoint (List.mem_cons_of_mem c hmem)
        · exact hpoint hmem
  simp [isDecimal, decimalParts?, cutAt_of_not_mem hdigits] at h

/-- A double has a mark for its exponent. -/
theorem exponent_mem {cs : List Char} (h : isDouble cs = true) : 'e' ∈ cs ∨ 'E' ∈ cs := by
  by_contra hexponent
  rw [not_or] at hexponent
  have hnone : ∀ c ∈ cs, c ≠ 'e' ∧ c ≠ 'E' := by
    intro c hc
    constructor
    · rintro rfl
      exact hexponent.1 hc
    · rintro rfl
      exact hexponent.2 hc
  rw [isDouble_eq_false hnone] at h
  cases h

/-- The special doubles are three texts. -/
theorem special_cases {cs : List Char} (h : (special? cs).isSome = true) :
    cs ∈ ["nan.".toList, "+inf.".toList, "-inf.".toList] := by
  unfold special? at h
  simp only [List.mem_cons, List.not_mem_nil, or_false]
  split at h
  · next hcs => exact .inl hcs
  · split at h
    · next hcs => exact .inr (.inl hcs)
    · split at h
      · next hcs => exact .inr (.inr hcs)
      · cases h

/-- **The characters of a literal tell its kind.** -/
theorem told_of_holds {k : Kind} {cs : List Char} (h : k.holds cs = true) : told cs = k := by
  cases k with
  -- The characters that are asked for in turn: a slash, the letter n, an exponent, a point.
  | fraction => rw [told, if_pos (slash_mem h)]
  | special =>
    have hall : ∀ cs ∈ ["nan.".toList, "+inf.".toList, "-inf.".toList], told cs = special := by
      decide
    exact hall cs (special_cases h)
  | double =>
    have hslash : '/' ∉ cs := fun hmem => absurd (mem_of_isDouble h hmem) (by decide)
    have hletter : 'n' ∉ cs := fun hmem => absurd (mem_of_isDouble h hmem) (by decide)
    rw [told, if_neg hslash, if_neg hletter, if_pos (exponent_mem h)]
  | decimal =>
    have hslash : '/' ∉ cs := fun hmem => absurd (mem_of_isDecimal h hmem) (by decide)
    have hletter : 'n' ∉ cs := fun hmem => absurd (mem_of_isDecimal h hmem) (by decide)
    have hexponent : ¬ ('e' ∈ cs ∨ 'E' ∈ cs) := by
      rintro (hmem | hmem)
      · exact absurd (mem_of_isDecimal h hmem) (by decide)
      · exact absurd (mem_of_isDecimal h hmem) (by decide)
    rw [told, if_neg hslash, if_neg hletter, if_neg hexponent, if_pos (point_mem h)]
  | integer =>
    have hslash : '/' ∉ cs := fun hmem => absurd (mem_of_isSignedDigits h hmem) (by decide)
    have hletter : 'n' ∉ cs := fun hmem => absurd (mem_of_isSignedDigits h hmem) (by decide)
    have hpoint : '.' ∉ cs := fun hmem => absurd (mem_of_isSignedDigits h hmem) (by decide)
    have hexponent : ¬ ('e' ∈ cs ∨ 'E' ∈ cs) := by
      rintro (hmem | hmem)
      · exact absurd (mem_of_isSignedDigits h hmem) (by decide)
      · exact absurd (mem_of_isSignedDigits h hmem) (by decide)
    rw [told, if_neg hslash, if_neg hletter, if_neg hexponent, if_neg hpoint]

/-- A literal is of one kind at most. -/
theorem eq_of_holds {k l : Kind} {cs : List Char} (hk : k.holds cs = true)
    (hl : l.holds cs = true) : k = l :=
  (told_of_holds hk).symm.trans (told_of_holds hl)

theorem holds_of_find? {ks : List Kind} {k : Kind} {cs : List Char}
    (h : ks.find? (·.holds cs) = some k) : k.holds cs = true :=
  List.find?_some (p := fun k : Kind => k.holds cs) h

/-- Of some kinds the one is found that is among them and that the literal is of. -/
theorem find?_eq_some_iff {ks : List Kind} {k : Kind} {cs : List Char} :
    ks.find? (·.holds cs) = some k ↔ k ∈ ks ∧ k.holds cs = true := by
  constructor
  · intro h
    exact ⟨List.mem_of_find?_eq_some h, holds_of_find? h⟩
  · rintro ⟨hmem, hk⟩
    cases h : ks.find? (·.holds cs) with
    | none => exact absurd hk (List.find?_eq_none.mp h k hmem)
    | some l => rw [eq_of_holds (holds_of_find? h) hk]

/-- **The order of the tests does not matter.** -/
theorem find?_perm {ks ls : List Kind} (h : ks.Perm ls) (cs : List Char) :
    ks.find? (·.holds cs) = ls.find? (·.holds cs) := by
  refine Option.ext fun k => ?_
  rw [find?_eq_some_iff, find?_eq_some_iff, h.mem_iff]

/-! ### Numbers and literals by kind -/

/-- The number that a literal of a kind is. One with an exponent is none. -/
def number? (cs : List Char) : Kind → Except Cause (Option Number)
  | fraction =>
    match rational? cs with
    | some (num, den) =>
      match Number.fraction? num den with
      | some n => .ok (some n)
      | none => .error (.malformedNumber 10 (String.ofList cs))
    | none => .ok none
  | decimal => .ok ((decimal? cs).map .float)
  | double => .ok none
  | special => .ok ((special? cs).map .float)
  | integer => .ok ((integer? 10 cs).map .integer)

/-- The number that a literal is if it is tested for the given kinds, one after the other. -/
def numberBy (ks : List Kind) (cs : List Char) : Except Cause (Option Number) :=
  match ks.find? (·.holds cs) with
  | some k => k.number? cs
  | none => .ok none

theorem isSome_decimal? (cs : List Char) : (decimal? cs).isSome = isDecimal cs := by
  rw [decimal?, Option.isSome_map, isDecimal]

/-- What is a fraction is taken for one before anything else. -/
theorem number?_of_rational? {cs : List Char} {e : Int × Nat} (h : rational? cs = some e) :
    Numeral.number? cs = number? cs fraction := by
  unfold Numeral.number? number?
  cases hrational : rational? cs with
  | some e => rfl
  | none => cases hrational.symm.trans h

/-- The order that the reader tries the kinds in is one of many. -/
theorem number?_eq_numberBy (cs : List Char) :
    Numeral.number? cs = numberBy [fraction, decimal, special, integer] cs := by
  unfold numberBy
  simp only [List.find?_cons, List.find?_nil, holds, ← isSome_decimal?]
  cases hrational : rational? cs with
  | some e =>
    simp only [Option.isSome_some]
    exact number?_of_rational? hrational
  | none =>
    unfold Numeral.number?
    simp only [hrational, Option.isSome_none]
    cases hdecimal : decimal? cs with
    | some x => simp only [Option.isSome_some, number?, hdecimal, Option.map_some]
    | none =>
      simp only [Option.isSome_none]
      cases hspecial : special? cs with
      | some x => simp only [Option.isSome_some, number?, hspecial, Option.map_some]
      | none =>
        simp only [Option.isSome_none]
        cases isSignedDigits cs <;> rfl

/-- The datatype of the literals of a kind, if they have one. -/
def datatype? : Kind → Option String
  | decimal => some "decimal"
  | double => some "double"
  | integer => some "integer"
  | fraction | special => none

/-- A query has its numerals from the tests for doubles, decimals and integers. -/
theorem numeralType?_eq (cs : List Char) :
    numeralType? cs = ([double, decimal, integer].find? (·.holds cs)).bind datatype? := by
  unfold numeralType?
  simp only [List.find?_cons, List.find?_nil, holds]
  cases isDouble cs with
  | true => rfl
  | false =>
    cases isDecimal cs with
    | true => rfl
    | false => cases isSignedDigits cs <;> rfl

/-- The word is a literal whose datatype is that of its kind, whichever kind is tried first. -/
theorem atom_of_find? {ks : List Kind} (hks : ks.Perm [double, decimal, integer]) {k : Kind}
    {cs : List Char} (h : ks.find? (·.holds cs) = some k) (m : Memory) :
    ∃ datatype ∈ k.datatype?,
      Dialect.Sparql.atom cs m = mention (.literal (.xsd (String.ofList cs) datatype)) m := by
  have hk : k ∈ [double, decimal, integer] := hks.mem_iff.mp (List.mem_of_find?_eq_some h)
  obtain ⟨datatype, hdatatype⟩ : ∃ datatype, k.datatype? = some datatype := by
    simp only [List.mem_cons, List.not_mem_nil, or_false] at hk
    obtain rfl | rfl | rfl := hk <;> exact ⟨_, rfl⟩
  refine ⟨datatype, hdatatype, ?_⟩
  have htype : numeralType? cs = some datatype := by
    rw [numeralType?_eq, ← find?_perm hks, h, Option.bind_some, hdatatype]
  cases cs with
  | nil => exact absurd rfl (numeralType?_some htype).1
  | cons c cs => exact atom_numeral htype m

end Kind

/-! ## Fractions -/

/-- A fraction as it is written: perhaps a sign, digits, a slash and digits. -/
structure Fraction where
  sign : List Char
  above : List Char
  below : List Char
  sign_mem : sign ∈ [[], ['+'], ['-']]
  above_digits : isDigits above = true
  below_digits : isDigits below = true

namespace Fraction

def text (f : Fraction) : List Char := f.sign ++ f.above ++ '/' :: f.below

/-- The number above the bar. -/
def num (f : Fraction) : Int :=
  if f.sign = ['-'] then -(Nat.ofDigitChars 10 f.above 0 : Int) else Nat.ofDigitChars 10 f.above 0

/-- The number below the bar. -/
def den (f : Fraction) : Nat := Nat.ofDigitChars 10 f.below 0

end Fraction

theorem natural?_of_isDigits {cs : List Char} (h : isDigits cs = true) :
    natural? 10 cs = some (Nat.ofDigitChars 10 cs 0) := by
  rw [isDigits, Bool.and_eq_true, Bool.not_eq_true'] at h
  rw [natural?, if_neg (by simp [h.1]), naturalFrom?_of_isDigit h.2]

theorem all_isDigit_of_isDigits {cs : List Char} (h : isDigits cs = true) :
    cs.all Char.isDigit = true := by
  rw [isDigits, Bool.and_eq_true] at h
  exact h.2

/-- Before digits, a sign is cut off. -/
theorem cutSign_append {sign cs : List Char} (hsign : sign ∈ [[], ['+'], ['-']])
    (hcs : isDigits cs = true) : cutSign (sign ++ cs) = (decide (sign = ['-']), cs) := by
  simp only [List.mem_cons, List.not_mem_nil, or_false] at hsign
  obtain rfl | rfl | rfl := hsign
  · exact cutSign_of_all_isDigit (all_isDigit_of_isDigits hcs)
  · rfl
  · rfl

/-- What is cut off is a sign. -/
theorem exists_sign (cs : List Char) :
    ∃ sign ∈ [[], ['+'], ['-']], cs = sign ++ (cutSign cs).2 := by
  cases cs with
  | nil => exact ⟨[], by decide, rfl⟩
  | cons c cs =>
    rw [cutSign]
    split
    · next hc => exact ⟨['-'], by decide, by rw [hc]; rfl⟩
    · split
      · next hc => exact ⟨['+'], by decide, by rw [hc]; rfl⟩
      · exact ⟨[], by decide, rfl⟩

/-- The text of a fraction is taken for its numerator and its denominator. -/
theorem rational?_text (f : Fraction) : rational? f.text = some (f.num, f.den) := by
  have hslash : '/' ∉ f.sign ++ f.above := by
    rw [List.mem_append, not_or]
    constructor
    · have hall : ∀ sign ∈ [[], ['+'], ['-']], '/' ∉ sign := by decide
      exact hall f.sign f.sign_mem
    · exact not_mem_of_all_isDigit (all_isDigit_of_isDigits f.above_digits) (by decide)
  have hcut := cutSign_append f.sign_mem f.above_digits
  have hnum : integer? 10 (f.sign ++ f.above) = some f.num := by
    rw [integer?, hcut]
    simp only [natural?_of_isDigits f.above_digits, decide_eq_true_eq]
    rfl
  have hsigned : isSignedDigits (f.sign ++ f.above) = true := by
    rw [isSignedDigits, hcut]
    exact f.above_digits
  rw [Fraction.text, rational?, cutAt_append hslash]
  simp only [hsigned, f.below_digits, Bool.and_self, if_true, hnum,
    natural?_of_isDigits f.below_digits, Option.bind_some, Option.map_some]
  rfl

/-- What is taken for a fraction is written as one. -/
theorem exists_fraction {cs : List Char} (h : (rational? cs).isSome = true) :
    ∃ f : Fraction, f.text = cs := by
  unfold rational? at h
  split at h
  · next num den hcut =>
    split at h
    · next hdigits =>
      rw [Bool.and_eq_true] at hdigits
      obtain ⟨sign, hsign, hnum⟩ := exists_sign num
      refine ⟨⟨sign, (cutSign num).2, den, hsign, hdigits.1, hdigits.2⟩, ?_⟩
      rw [Fraction.text, ← hnum, eq_append_of_cutAt hcut]
    · cases h
  · cases h

/-- The parts of a fraction are brought to lowest terms, unless it has a zero below the bar. -/
theorem fraction?_eq (num : Int) {den : Nat} (h : den ≠ 0) :
    Number.fraction? num den = some (.rational (mkRat num den)) := by
  have hden : (den : Int) ≠ 0 := by omega
  have hsign : (den : Int).sign = 1 := Int.sign_eq_one_of_pos (by omega)
  rw [Number.fraction?, if_neg hden, hsign, Int.mul_one, Int.natAbs_natCast]

/-- The text of a fraction is a number, or the error if there is a zero below the bar. -/
theorem atom_text (f : Fraction) : atom f.text =
    if f.den = 0 then .error (.malformedNumber 10 (String.ofList f.text))
    else .ok (.number (.rational (mkRat f.num f.den))) := by
  have hdot : f.text ≠ ['.'] := by
    intro h
    have hmem : '/' ∈ f.text := by simp [Fraction.text]
    rw [h] at hmem
    exact absurd hmem (by decide)
  rw [atom, if_neg hdot, number?, rational?_text]
  by_cases hden : f.den = 0
  · rw [if_pos hden]
    simp only [hden, Number.fraction?]
    rfl
  · rw [if_neg hden]
    simp only [fraction?_eq f.num hden]
    rfl

/-- Fractions are equal if they are so crosswise. -/
theorem rational_eq_iff {a c : Int} {b d : Nat} (hb : b ≠ 0) (hd : d ≠ 0) :
    (Atom.number (.rational (mkRat a b)) == .number (.rational (mkRat c d))) = true ↔
      a * d = c * b := by
  have heq : (Atom.number (.rational (mkRat a b)) == .number (.rational (mkRat c d))) =
      (mkRat a b == mkRat c d) := rfl
  rw [heq, beq_iff_eq, Rat.mkRat_eq_iff hb hd]

/-- The fraction is in lowest terms, and has the value that is written. -/
theorem mkRat_reduced (a : Int) {b : Nat} (hb : b ≠ 0) :
    (mkRat a b).num * b = a * (mkRat a b).den ∧ 0 < (mkRat a b).den ∧
      (mkRat a b).num.natAbs.Coprime (mkRat a b).den := by
  refine ⟨?_, (mkRat a b).den_pos, (mkRat a b).reduced⟩
  exact (Rat.mkRat_eq_iff (mkRat a b).den_nz hb).mp (Rat.mkRat_self _)

/-! ## Consistency -/

/-- **Numerals are told apart, compared and written consistently.** No literal is of two kinds, so
the tests for them can be made in any order. A fraction is a number in lowest terms of the value
that is written, unless what is below the bar is zero, which is a failure; and two of them are equal
if they are so crosswise. What an exact number is written as is that number. -/
theorem numerals_consistent :
    (∀ (cs : List Char) (k l : Kind), k.holds cs = true → l.holds cs = true → k = l) ∧
      (∀ ks : List Kind, ks.Perm [.fraction, .decimal, .special, .integer] →
        ∀ cs, number? cs = Kind.numberBy ks cs) ∧
      (∀ ks : List Kind, ks.Perm [.double, .decimal, .integer] →
        ∀ cs k m, ks.find? (·.holds cs) = some k → ∃ datatype ∈ k.datatype?,
          Dialect.Sparql.atom cs m = mention (.literal (.xsd (String.ofList cs) datatype)) m) ∧
      (∀ cs, (rational? cs).isSome = true ↔ ∃ f : Fraction, f.text = cs) ∧
      (∀ f : Fraction, f.den ≠ 0 → ∃ p : Rat, atom f.text = .ok (.number (.rational p)) ∧
        p.num * f.den = f.num * p.den ∧ 0 < p.den ∧ p.num.natAbs.Coprime p.den) ∧
      (∀ (f g : Fraction) (a b : Atom), f.den ≠ 0 → g.den ≠ 0 → atom f.text = .ok a →
        atom g.text = .ok b → ((a == b) = true ↔ f.num * g.den = g.num * f.den)) ∧
      (∀ f : Fraction, f.den = 0 →
        atom f.text = .error (.malformedNumber 10 (String.ofList f.text))) ∧
      (∀ n : Int, atom (Number.integer n).written = .ok (.number (.integer n))) ∧
      ∀ q : Rat, atom (Number.rational q).written = .ok (.number (.rational q)) := by
  -- The kinds and the order of their tests; then what fractions are, and when they are equal; last,
  -- what is written.
  refine ⟨fun cs k l => Kind.eq_of_holds, fun ks hks cs => ?_, fun ks hks cs k m h => ?_,
    fun cs => ⟨exists_fraction, ?_⟩, fun f hf => ?_, fun f g a b hf hg ha hb => ?_, fun f hf => ?_,
    atom_decimal, atom_written_rational⟩
  · rw [Kind.number?_eq_numberBy, Kind.numberBy, Kind.numberBy, Kind.find?_perm hks]
  · exact Kind.atom_of_find? hks h m
  · rintro ⟨f, rfl⟩
    rw [rational?_text, Option.isSome_some]
  · refine ⟨mkRat f.num f.den, ?_, mkRat_reduced f.num hf⟩
    rw [atom_text, if_neg hf]
  · rw [atom_text, if_neg hf] at ha
    rw [atom_text, if_neg hg] at hb
    cases ha
    cases hb
    exact rational_eq_iff hf hg
  · rw [atom_text, if_pos hf]

/-- Half a dozen quarters is three halves, and nothing can be divided by zero. -/
theorem numerals_consistent_halves :
    let f : Fraction := ⟨['-'], ['0', '6'], ['4'], by decide, by decide, by decide⟩
    let g : Fraction := ⟨['-'], ['3'], ['0', '2'], by decide, by decide, by decide⟩
    let z : Fraction := ⟨['+'], ['1'], ['0', '0'], by decide, by decide, by decide⟩
    f.den ≠ 0 ∧ g.den ≠ 0 ∧ z.den = 0 ∧
      (∃ a b, atom "-06/4".toList = .ok a ∧ atom "-3/02".toList = .ok b ∧ (a == b) = true) ∧
      atom "+1/00".toList = .error (.malformedNumber 10 "+1/00") ∧
      [Kind.integer, .special, .decimal, .fraction].Perm [.fraction, .decimal, .special, .integer] ∧
      number? "-1.5".toList =
        Kind.numberBy [.integer, .special, .decimal, .fraction] "-1.5".toList ∧
      [Kind.integer, .decimal, .double].Perm [.double, .decimal, .integer] ∧
      [Kind.integer, .decimal, .double].find? (·.holds "1.0e1".toList) = some .double ∧
      Dialect.Sparql.atom "1.0e1".toList {} =
        mention (.literal (.xsd "1.0e1" "double")) ({} : Memory) := by
  intro f g z
  have hf : f.den ≠ 0 := by decide
  have hg : g.den ≠ 0 := by decide
  have hz : z.den = 0 := by decide
  have hks : [Kind.integer, .special, .decimal, .fraction].Perm
      [.fraction, .decimal, .special, .integer] := by decide
  have hls : [Kind.integer, .decimal, .double].Perm [.double, .decimal, .integer] := by decide
  have hdouble :
      [Kind.integer, .decimal, .double].find? (·.holds "1.0e1".toList) = some .double := by
    decide
  obtain ⟨-, horder, hliteral, -, hvalue, hequal, hzero, -⟩ := numerals_consistent
  obtain ⟨p, hp, -⟩ := hvalue f hf
  obtain ⟨q, hq, -⟩ := hvalue g hg
  obtain ⟨datatype, hdatatype, hatom⟩ := hliteral _ hls _ _ {} hdouble
  cases hdatatype
  exact ⟨hf, hg, hz, ⟨_, _, hp, hq, (hequal f g _ _ hf hg hp hq).mpr (by decide)⟩, hzero z hz, hks,
    horder _ hks _, hls, hdouble, hatom⟩

end SExpr.Numeral
