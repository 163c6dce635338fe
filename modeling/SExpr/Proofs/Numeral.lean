import SExpr.Numeral
import SExpr.Proofs.Cut

/-!
# Numerals read back

A number without a fractional point is written with digits, a sign and a slash. Each such text is
the numeral of exactly that number, and it has no character that a literal cannot have.
-/

namespace SExpr

/-- An integer or a fraction. -/
def Number.isExact : Number → Bool
  | integer _ | rational _ => true
  | float _ => false

namespace Numeral

open Text

/-! ## Digits -/

theorem toNat_of_isDigit {c : Char} (hc : c.isDigit = true) : 48 ≤ c.toNat ∧ c.toNat < 58 := by
  simp only [Char.isDigit, Bool.and_eq_true, decide_eq_true_eq, ge_iff_le, UInt32.le_iff_toNat_le]
    at hc
  have hval : c.val.toNat = c.toNat := rfl
  have hzero : ('0' : Char).val.toNat = 48 := rfl
  have hnine : ('9' : Char).val.toNat = 57 := rfl
  omega

/-- The decimal digits. -/
def digitChars : List Char := ['0', '1', '2', '3', '4', '5', '6', '7', '8', '9']

theorem mem_digitChars_of_isDigit {c : Char} (hc : c.isDigit = true) : c ∈ digitChars := by
  have hall : ∀ n < 58, 48 ≤ n → Char.ofNat n ∈ digitChars := by decide
  obtain ⟨hle, hlt⟩ := toNat_of_isDigit hc
  rw [← Char.ofNat_toNat c]
  exact hall _ hlt hle

/-- A digit has the value that its place among the digits gives it. -/
theorem digitValue?_ten_of_isDigit {c : Char} (hc : c.isDigit = true) :
    digitValue? 10 c = some (c.toNat - '0'.toNat) := by
  have hlt : c.toNat - '0'.toNat < 10 := by
    have hzero : ('0' : Char).toNat = 48 := rfl
    have := toNat_of_isDigit hc
    omega
  simp only [digitValue?, hc, if_true, Option.filter_some, hlt, decide_true]

/-- Digits alone make up a number, the earlier ones counting for more. -/
theorem naturalFrom?_of_isDigit {cs : List Char} (hcs : cs.all Char.isDigit = true) (n : Nat) :
    naturalFrom? 10 n cs = some (Nat.ofDigitChars 10 cs n) := by
  induction cs generalizing n with
  | nil => rfl
  | cons c cs ih =>
    rw [List.all_cons, Bool.and_eq_true] at hcs
    rw [naturalFrom?, digitValue?_ten_of_isDigit hcs.1, Option.bind_some, ih hcs.2,
      Nat.ofDigitChars_cons, Nat.mul_comm]

theorem all_isDigit_toDigits (n : Nat) : (Nat.toDigits 10 n).all Char.isDigit = true := by
  rw [List.all_eq_true]
  exact fun c hc => Nat.isDigit_of_mem_toDigits (by decide) (by decide) hc

/-- A number written in decimal is made of digits, and of at least one. -/
theorem isDigits_toDigits (n : Nat) : isDigits (Nat.toDigits 10 n) = true := by
  simp [isDigits, all_isDigit_toDigits, Nat.toDigits_ne_nil]

theorem natural?_toDigits (n : Nat) : natural? 10 (Nat.toDigits 10 n) = some n := by
  rw [natural?, if_neg (by simp [Nat.toDigits_ne_nil]),
    naturalFrom?_of_isDigit (all_isDigit_toDigits n), Nat.ofDigitChars_ten_toDigits]

theorem toList_numbered (stem : String) (n : Nat) :
    s!"{stem}{n}".toList = stem.toList ++ Nat.toDigits 10 n := by
  simp [toString, Nat.repr]

/-- What is no digit does not occur among digits. -/
theorem not_mem_of_all_isDigit {cs : List Char} (hcs : cs.all Char.isDigit = true) {c : Char}
    (hc : c.isDigit = false) : c ∉ cs := by
  intro hmem
  rw [List.all_eq_true.mp hcs c hmem] at hc
  exact absurd hc (by decide)

/-- Digits have no sign before them. -/
theorem cutSign_of_all_isDigit {cs : List Char} (hcs : cs.all Char.isDigit = true) :
    cutSign cs = (false, cs) := by
  cases cs with
  | nil => rfl
  | cons c cs =>
    rw [List.all_cons, Bool.and_eq_true] at hcs
    have hminus : c ≠ '-' := by
      rintro rfl
      exact absurd hcs.1 (by decide)
    have hplus : c ≠ '+' := by
      rintro rfl
      exact absurd hcs.1 (by decide)
    rw [cutSign, if_neg hminus, if_neg hplus]

/-! ## Integers -/

/-- The sign is cut off a number, and its digits are left. -/
theorem cutSign_decimal (n : Int) :
    cutSign (Number.decimal n) = (decide (n < 0), Nat.toDigits 10 n.natAbs) := by
  unfold Number.decimal
  split
  · next hn => simp [cutSign, hn]
  · next hn => simp [cutSign_of_all_isDigit (all_isDigit_toDigits _), hn]

/-- An integer is read back as it was written. -/
theorem integer?_decimal (n : Int) : integer? 10 (Number.decimal n) = some n := by
  -- The sign is cut off and the digits are those of the absolute value.
  have hsign : (if decide (n < 0) = true then -(n.natAbs : Int) else n.natAbs) = n := by
    simp only [decide_eq_true_eq]
    split <;> omega
  rw [integer?, cutSign_decimal]
  simp only [natural?_toDigits]
  exact congrArg some hsign

theorem isSignedDigits_decimal (n : Int) : isSignedDigits (Number.decimal n) = true := by
  rw [isSignedDigits, cutSign_decimal]
  exact isDigits_toDigits _

/-- The characters of an integer are digits and the minus sign. -/
theorem mem_decimal {n : Int} {c : Char} (hc : c ∈ Number.decimal n) :
    c = '-' ∨ c.isDigit = true := by
  unfold Number.decimal at hc
  split at hc
  · rw [List.mem_cons] at hc
    exact hc.imp_right fun h => List.all_eq_true.mp (all_isDigit_toDigits _) c h
  · exact .inr (List.all_eq_true.mp (all_isDigit_toDigits _) c hc)

/-- Other characters than digits and the sign do not occur in an integer. -/
theorem not_mem_decimal {n : Int} {c : Char} (hsign : c ≠ '-') (hc : c.isDigit = false) :
    c ∉ Number.decimal n := by
  intro hmem
  rcases mem_decimal hmem with h | h
  · exact hsign h
  · rw [h] at hc
    exact absurd hc (by decide)

/-- **The decimal text of an integer is its numeral.** -/
theorem atom_decimal (n : Int) : atom (Number.decimal n) = .ok (.number (.integer n)) := by
  have hslash : '/' ∉ Number.decimal n := not_mem_decimal (by decide) (by decide)
  have hpoint : '.' ∉ Number.decimal n := not_mem_decimal (by decide) (by decide)
  have hpoint' : '.' ∉ Nat.toDigits 10 n.natAbs :=
    not_mem_of_all_isDigit (all_isDigit_toDigits _) (by decide)
  have hrational : rational? (Number.decimal n) = none := by
    simp only [rational?, cutAt_of_not_mem hslash]
  have hdecimal : decimal? (Number.decimal n) = none := by
    simp only [decimal?, decimalParts?, cutSign_decimal, cutAt_of_not_mem hpoint', Option.map_none]
  have hspecial : special? (Number.decimal n) = none := by
    unfold special?
    repeat rw [if_neg]
    all_goals
      intro h
      exact hpoint (h ▸ by decide)
  have hdot : Number.decimal n ≠ ['.'] := by
    intro h
    exact hpoint (h ▸ by decide)
  rw [atom, if_neg hdot, number?, hrational]
  simp only [hdecimal, hspecial, isSignedDigits_decimal, if_true, integer?_decimal]
  rfl

/-! ## Fractions -/

/-- A fraction is written as its numerator and its denominator, and cut at the slash. -/
theorem rational?_written (q : Rat) :
    rational? (Number.decimal q.num ++ '/' :: Nat.toDigits 10 q.den) = some (q.num, q.den) := by
  have hslash : '/' ∉ Number.decimal q.num := not_mem_decimal (by decide) (by decide)
  simp only [rational?, cutAt_append hslash, isSignedDigits_decimal, isDigits_toDigits,
    Bool.and_self, if_true, integer?_decimal, natural?_toDigits, Option.bind_some, Option.map_some]

/-- A fraction in lowest terms stays as it is when it is made of its parts. -/
theorem fraction?_num_den (q : Rat) : Number.fraction? q.num q.den = some (.rational q) := by
  have hden : (q.den : Int) ≠ 0 := by
    have := q.den_nz
    omega
  have hsign : (q.den : Int).sign = 1 := by
    rw [Int.sign_eq_one_iff_pos]
    have := q.den_nz
    omega
  rw [Number.fraction?, if_neg hden, hsign, Int.mul_one, Int.natAbs_natCast, Rat.mkRat_self]

/-- **The text of a fraction is its numeral.** -/
theorem atom_written_rational (q : Rat) :
    atom (Number.written (.rational q)) = .ok (.number (.rational q)) := by
  have hdot : Number.written (.rational q) ≠ ['.'] := by
    intro h
    have hmem : '/' ∈ Number.written (.rational q) := by simp [Number.written]
    rw [h] at hmem
    exact absurd hmem (by decide)
  rw [atom, if_neg hdot, number?]
  simp only [Number.written, rational?_written, fraction?_num_den]
  rfl

/-! ## Exact numbers -/

/-- **The text of an exact number is its numeral.** -/
theorem atom_written {n : Number} (hn : n.isExact = true) : atom n.written = .ok (.number n) := by
  cases n with
  | integer n => exact atom_decimal n
  | rational q => exact atom_written_rational q
  | float x => simp [Number.isExact] at hn

/-- The characters that exact numbers are written with. -/
def exactChars : List Char := ['-', '/'] ++ digitChars

theorem mem_exactChars_of_isDigit {c : Char} (hc : c.isDigit = true) : c ∈ exactChars :=
  List.mem_append_right _ (mem_digitChars_of_isDigit hc)

/-- An exact number is written with digits, a sign and a slash. -/
theorem mem_exactChars_of_mem_written {n : Number} (hn : n.isExact = true) {c : Char}
    (hc : c ∈ n.written) : c ∈ exactChars := by
  have hdecimal {k : Int} (hk : c ∈ Number.decimal k) : c ∈ exactChars := by
    rcases mem_decimal hk with rfl | h
    · decide
    · exact mem_exactChars_of_isDigit h
  cases n with
  | integer k => exact hdecimal hc
  | rational q =>
    rw [Number.written, List.mem_append, List.mem_cons] at hc
    rcases hc with h | rfl | h
    · exact hdecimal h
    · decide
    · exact mem_exactChars_of_isDigit (List.all_eq_true.mp (all_isDigit_toDigits _) c h)
  | float x => simp [Number.isExact] at hn

theorem written_ne_nil {n : Number} (hn : n.isExact = true) : n.written ≠ [] := by
  have hdecimal (k : Int) : Number.decimal k ≠ [] := by
    intro h
    have := isSignedDigits_decimal k
    rw [h] at this
    exact absurd this (by decide)
  cases n with
  | integer k => exact hdecimal k
  | rational q => simp [Number.written]
  | float x => simp [Number.isExact] at hn

/-! ## What is no numeral -/

theorem isDigits_cons_eq_false {c : Char} (hc : c.isDigit = false) (cs : List Char) :
    isDigits (c :: cs) = false := by
  simp [isDigits, hc]

/-- **A literal that begins like no number is a symbol.** -/
theorem atom_cons {c : Char} (hc : c.isDigit = false) (hc' : c ∉ ['+', '-', '.', '/', 'n'])
    (cs : List Char) : atom (c :: cs) = .ok (.symbol (String.ofList (c :: cs))) := by
  simp only [List.mem_cons, List.not_mem_nil, or_false, not_or] at hc'
  obtain ⟨hplus, hminus, hpoint, hslash, hn⟩ := hc'
  have hsign (ds : List Char) : cutSign (c :: ds) = (false, c :: ds) := by
    rw [cutSign, if_neg hminus, if_neg hplus]
  have hcut {e : Char} (he : c ≠ e) : ∃ ds rest, cutAt e (c :: cs) = (c :: ds, rest) := by
    refine ⟨cs.takeWhile (· != e), ((c :: cs).dropWhile (· != e)).tail?, ?_⟩
    rw [cutAt, List.takeWhile_cons_of_pos (by simpa using he)]
  -- Each kind of number would have to begin with one of these characters, or with a digit.
  have hrational : rational? (c :: cs) = none := by
    obtain ⟨ds, rest, hds⟩ := hcut hslash
    rw [rational?, hds]
    cases rest with
    | none => rfl
    | some den => simp [isSignedDigits, hsign, isDigits_cons_eq_false hc]
  have hdecimal : decimal? (c :: cs) = none := by
    obtain ⟨ds, rest, hds⟩ := hcut hpoint
    simp only [decimal?, decimalParts?, hsign, hds]
    cases rest with
    | none => rfl
    | some part => simp [hc]
  have hspecial : special? (c :: cs) = none := by
    unfold special?
    repeat rw [if_neg]
    all_goals
      intro h
      have hhead := congrArg List.head? h
      simp_all
  have hdot : c :: cs ≠ ['.'] := by simp [hpoint]
  rw [atom, if_neg hdot, number?, hrational]
  simp only [hdecimal, hspecial, isSignedDigits, hsign, isDigits_cons_eq_false hc,
    Bool.false_eq_true, if_false]
  rfl

/-! ## The characters of numerals -/

/-- A character stands in the sign or after it. -/
theorem mem_cutSign {cs : List Char} {c : Char} (hc : c ∈ cs) :
    c ∈ ['+', '-'] ∨ c ∈ (cutSign cs).2 := by
  cases cs with
  | nil => exact .inr hc
  | cons d ds =>
    rw [cutSign]
    rw [List.mem_cons] at hc
    split
    · next hd => exact hc.imp_left fun h => by simp [h, hd]
    · split
      · next hd => exact hc.imp_left fun h => by simp [h, hd]
      · exact .inr (List.mem_cons.mpr hc)

theorem mem_of_isDigits {cs : List Char} (h : isDigits cs = true) {c : Char} (hc : c ∈ cs) :
    c ∈ digitChars := by
  rw [isDigits, Bool.and_eq_true] at h
  exact mem_digitChars_of_isDigit (List.all_eq_true.mp h.2 c hc)

theorem mem_of_isSignedDigits {cs : List Char} (h : isSignedDigits cs = true) {c : Char}
    (hc : c ∈ cs) : c ∈ ['+', '-'] ++ digitChars :=
  List.mem_append.mpr ((mem_cutSign hc).imp_right (mem_of_isDigits h))

/-- The characters of a decimal are digits, a sign and a point. -/
theorem mem_of_isDecimal {cs : List Char} (h : isDecimal cs = true) {c : Char} (hc : c ∈ cs) :
    c ∈ ['+', '-', '.'] ++ digitChars := by
  simp only [isDecimal, decimalParts?] at h
  cases hcut : cutAt '.' (cutSign cs).2 with
  | mk whole rest =>
    cases rest with
    | none => simp [hcut] at h
    | some part =>
      simp only [hcut] at h
      split at h
      · next hdigits =>
        simp only [Bool.and_eq_true] at hdigits
        have hwhole := List.all_eq_true.mp hdigits.1.1
        have hpart := List.all_eq_true.mp hdigits.1.2
        rcases mem_cutSign hc with hsign | hc
        · simp only [List.mem_cons, List.not_mem_nil, or_false] at hsign
          rcases hsign with rfl | rfl <;> decide
        · rw [eq_append_of_cutAt hcut, List.mem_append, List.mem_cons] at hc
          rcases hc with hc | rfl | hc
          · exact List.mem_append_right _ (mem_digitChars_of_isDigit (hwhole c hc))
          · decide
          · exact List.mem_append_right _ (mem_digitChars_of_isDigit (hpart c hc))
      · simp at h

/-- The characters of numerals with a point or an exponent. -/
def numeralChars : List Char := ['+', '-', '.', 'e', 'E'] ++ digitChars

/-- These are among the characters of numerals. -/
theorem mem_numeralChars_of_mem {c : Char} (hc : c ∈ ['+', '-', '.'] ++ digitChars) :
    c ∈ numeralChars := by
  have hall : ∀ c ∈ ['+', '-', '.'] ++ digitChars, c ∈ numeralChars :=
    List.all_iff_forall_prop.mp (by decide)
  exact hall c hc

theorem mem_numeralChars_of_isSignedDigits {cs : List Char} (h : isSignedDigits cs = true)
    {c : Char} (hc : c ∈ cs) : c ∈ numeralChars := by
  have hall : ∀ c ∈ ['+', '-'] ++ digitChars, c ∈ numeralChars :=
    List.all_iff_forall_prop.mp (by decide)
  exact hall c (mem_of_isSignedDigits h hc)

/-- The characters of a double are those of its two halves and the mark between them. -/
theorem mem_of_isDouble {cs : List Char} (h : isDouble cs = true) {c : Char} (hc : c ∈ cs) :
    c ∈ numeralChars := by
  unfold isDouble at h
  rw [← List.takeWhile_append_dropWhile (p := fun c => c != 'e' && c != 'E') (l := cs),
    List.mem_append] at hc
  cases hdrop : cs.dropWhile fun c => c != 'e' && c != 'E' with
  | nil => simp [hdrop] at h
  | cons d ds =>
    simp only [hdrop, Bool.and_eq_true] at h
    rcases hc with hc | hc
    · exact mem_numeralChars_of_mem (mem_of_isDecimal h.1 hc)
    · have hd := List.head?_dropWhile_not (fun c => c != 'e' && c != 'E') cs
      rw [hdrop] at hd hc
      rcases List.mem_cons.mp hc with rfl | hc
      · have : c = 'e' ∨ c = 'E' := by simpa [Decidable.or_iff_not_imp_left] using hd
        rcases this with rfl | rfl <;> decide
      · exact mem_numeralChars_of_isSignedDigits h.2 hc

/-- A literal with a character that no numeral has is none. -/
theorem isNumeral_eq_false {c : Char} (hc : c ∉ numeralChars) {cs : List Char} (hmem : c ∈ cs) :
    isDouble cs = false ∧ isDecimal cs = false ∧ isSignedDigits cs = false := by
  refine ⟨?_, ?_, ?_⟩ <;> rw [Bool.eq_false_iff] <;> intro h
  · exact hc (mem_of_isDouble h hmem)
  · exact hc (mem_numeralChars_of_mem (mem_of_isDecimal h hmem))
  · exact hc (mem_numeralChars_of_isSignedDigits h hmem)

/-- Without a mark for the exponent there is no double. -/
theorem isDouble_eq_false {cs : List Char} (h : ∀ c ∈ cs, c ≠ 'e' ∧ c ≠ 'E') :
    isDouble cs = false := by
  have hdrop : cs.dropWhile (fun c => c != 'e' && c != 'E') = [] :=
    dropWhile_eq_nil fun c hc => by simpa using h c hc
  simp only [isDouble, hdrop]

theorem isDecimal_eq_false {cs : List Char} (h : isSignedDigits cs = true) :
    isDecimal cs = false := by
  have hpoint : '.' ∉ (cutSign cs).2 := fun hmem => absurd (mem_of_isDigits h hmem) (by decide)
  simp only [isDecimal, decimalParts?, cutAt_of_not_mem hpoint, Option.isSome_none]

/-- What has a value as a decimal digit is a digit. -/
theorem isDigit_of_digitValue? {c : Char} {n : Nat} (h : digitValue? 10 c = some n) :
    c.isDigit = true := by
  by_cases hc : c.isDigit = true
  · exact hc
  · -- A letter has a value, but none below ten.
    simp only [digitValue?, hc, Bool.false_eq_true, if_false, Option.filter_eq_some_iff,
      decide_eq_true_eq] at h
    obtain ⟨h, hlt⟩ := h
    split at h
    · simp only [Option.some.injEq] at h
      omega
    · split at h
      · simp only [Option.some.injEq] at h
        omega
      · cases h

/-- What has a value as a decimal number is made of digits. -/
theorem all_isDigit_of_naturalFrom? {cs : List Char} {n : Nat}
    (h : (naturalFrom? 10 n cs).isSome = true) : cs.all Char.isDigit = true := by
  induction cs generalizing n with
  | nil => rfl
  | cons c cs ih =>
    rw [naturalFrom?] at h
    cases hd : digitValue? 10 c with
    | none => simp [hd] at h
    | some d =>
      rw [hd, Option.bind_some] at h
      rw [List.all_cons, isDigit_of_digitValue? hd, ih h]
      rfl

/-- What has a value as an integer is digits with a sign. -/
theorem isSignedDigits_of_integer? {cs : List Char} (h : (integer? 10 cs).isSome = true) :
    isSignedDigits cs = true := by
  cases hn : natural? 10 (cutSign cs).2 with
  | none => simp [integer?, hn] at h
  | some n =>
    rw [natural?] at hn
    split at hn
    · cases hn
    · next hempty =>
      have hdigits := all_isDigit_of_naturalFrom? (Option.isSome_of_eq_some hn)
      rw [isSignedDigits, isDigits, hdigits, Bool.and_true, Bool.not_eq_true']
      exact Bool.eq_false_iff.mpr hempty

end Numeral

end SExpr
