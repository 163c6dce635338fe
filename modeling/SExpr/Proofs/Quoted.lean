import SExpr.Proofs.Lexeme

/-!
# Strings as they are written

A string is written between quotes, so that reading it comes to an end where it was written to end,
whatever follows: neither a quote nor a control character stands bare between the two quotes.

* **`isEscaped`**: a character stands after a backslash that counts.
* **`Sealed`**: texts whose end is not escaped, and in which each quote is; two of them can be put
  together.
* **`written_sealed`**: what is written between the quotes is such a text.
* **`readString_written`**: what is written is read back, and what it is like.
-/

namespace SExpr.Quoted

open Text

/-- The character at a place is escaped: it comes after a backslash that is not itself escaped. -/
def isEscaped (cs : List Char) : Nat → Bool
  | 0 => false
  | i + 1 => cs[i]? == some '\\' && !isEscaped cs i

/-- Whether a character is escaped depends on what comes before it only. -/
theorem isEscaped_append_left {front : List Char} (rest : List Char) {i : Nat}
    (hi : i ≤ front.length) : isEscaped (front ++ rest) i = isEscaped front i := by
  induction i with
  | zero => rfl
  | succ i ih =>
    rw [isEscaped, isEscaped, ih (Nat.le_of_succ_le hi), List.getElem?_append_left hi]

/-- After a text whose end is not escaped, escapes are told as if there were nothing before. -/
theorem isEscaped_append_right {front : List Char} (hfront : isEscaped front front.length = false)
    (rest : List Char) (i : Nat) :
    isEscaped (front ++ rest) (front.length + i) = isEscaped rest i := by
  induction i with
  | zero => rw [Nat.add_zero, isEscaped_append_left rest (Nat.le_refl _), hfront, isEscaped]
  | succ i ih =>
    rw [← Nat.add_assoc, isEscaped, isEscaped, ih,
      List.getElem?_append_right (Nat.le_add_right _ _), Nat.add_sub_cancel_left]

/-- The end of the text is not escaped, and every quote in it is. -/
structure Sealed (quote : Quote) (cs : List Char) : Prop where
  complete : isEscaped cs cs.length = false
  escaped : ∀ i, cs[i]? = some quote.char → isEscaped cs i = true

namespace Sealed

variable {quote : Quote} {cs ds : List Char}

theorem nil (quote : Quote) : Sealed quote [] := ⟨rfl, by simp⟩

/-- Two sealed texts, one after the other, are sealed. -/
theorem append (hcs : Sealed quote cs) (hds : Sealed quote ds) : Sealed quote (cs ++ ds) := by
  constructor
  · rw [List.length_append, isEscaped_append_right hcs.complete, hds.complete]
  · intro i hi
    by_cases hlt : i < cs.length
    · rw [List.getElem?_append_left hlt] at hi
      rw [isEscaped_append_left ds (Nat.le_of_lt hlt)]
      exact hcs.escaped i hi
    · obtain ⟨j, rfl⟩ := Nat.exists_eq_add_of_le (Nat.le_of_not_lt hlt)
      rw [List.getElem?_append_right (Nat.le_add_right _ _), Nat.add_sub_cancel_left] at hi
      rw [isEscaped_append_right hcs.complete]
      exact hds.escaped j hi

/-- A character that is neither a backslash nor the quote can stand bare. -/
theorem bare {c : Char} (hback : c ≠ '\\') (hquote : c ≠ quote.char) : Sealed quote [c] := by
  constructor
  · simp [isEscaped, hback]
  · intro i hi
    cases i with
    | zero => exact absurd (by simpa using hi) hquote
    | succ i => simp at hi

/-- Any character can stand after a backslash. -/
theorem backslash (quote : Quote) (c : Char) : Sealed quote ['\\', c] := by
  have hquote : '\\' ≠ quote.char := by cases quote <;> decide
  constructor
  · simp [isEscaped]
  · intro i hi
    match i with
    | 0 => exact absurd (by simpa using hi) hquote
    | 1 => simp [isEscaped]
    | i + 2 => simp at hi

/-- A text is sealed if what stands for each of its characters is. -/
theorem flatMap {f : Char → List Char} (hf : ∀ c ∈ cs, Sealed quote (f c)) :
    Sealed quote (cs.flatMap f) := by
  induction cs with
  | nil => exact .nil quote
  | cons c cs ih =>
    rw [List.forall_mem_cons] at hf
    rw [List.flatMap_cons]
    exact hf.1.append (ih hf.2)

theorem bares (h : ∀ c ∈ cs, c ≠ '\\' ∧ c ≠ quote.char) : Sealed quote cs := by
  rw [← List.flatMap_singleton' cs]
  exact .flatMap fun c hc => .bare (h c hc).1 (h c hc).2

/-- Before a closing quote, the text holds none that could be taken for it. -/
theorem unescaped_iff (hcs : Sealed quote cs) (i : Nat) :
    (cs ++ [quote.char])[i]? = some quote.char ∧ isEscaped (cs ++ [quote.char]) i = false ↔
      i = cs.length := by
  rcases Nat.lt_trichotomy i cs.length with hlt | rfl | hgt
  · rw [List.getElem?_append_left hlt, isEscaped_append_left _ (Nat.le_of_lt hlt)]
    constructor
    · rintro ⟨hquote, hbare⟩
      rw [hcs.escaped i hquote] at hbare
      cases hbare
    · omega
  · rw [isEscaped_append_left _ (Nat.le_refl _), hcs.complete]
    simp
  · have hnone : (cs ++ [quote.char])[i]? = none := by
      rw [List.getElem?_eq_none_iff, List.length_append, List.length_singleton]
      exact hgt
    rw [hnone]
    constructor
    · rintro ⟨⟨⟩, -⟩
    · omega

end Sealed

/-! ## What is written for a character -/

/-- A character is written as itself, as a backslash and a character, or as its code. -/
theorem escape_cases (quote : Quote) (c : Char) :
    (escape quote c = [c] ∧ c ≠ '\\' ∧ c ≠ quote.char ∧ isControl c = false) ∨
      (∃ d, escape quote c = ['\\', d] ∧ isControl d = false) ∨
      escape quote c = ['\\', 'u'] ++ fourHexDigits c.toNat := by
  unfold escape
  split_ifs with hback hnewline hreturn htab hbackspace hpage hquote hcontrol
  · exact .inr (.inl ⟨'\\', rfl, by decide⟩)
  · exact .inr (.inl ⟨'n', rfl, by decide⟩)
  · exact .inr (.inl ⟨'r', rfl, by decide⟩)
  · exact .inr (.inl ⟨'t', rfl, by decide⟩)
  · exact .inr (.inl ⟨'b', rfl, by decide⟩)
  · exact .inr (.inl ⟨'f', rfl, by decide⟩)
  · exact .inr (.inl ⟨c, rfl, by subst hquote; cases quote <;> decide⟩)
  · exact .inr (.inr rfl)
  · exact .inl ⟨rfl, hback, hquote, Bool.eq_false_iff.mpr hcontrol⟩

theorem hexDigit_plain :
    ∀ n < 16, isControl (hexDigit n) = false ∧ hexDigit n ∉ ['\\', '"', '\''] := by
  decide

/-- The four digits of a code are neither quotes nor control characters. -/
theorem fourHexDigits_plain {n : Nat} {c : Char} (hc : c ∈ fourHexDigits n) :
    isControl c = false ∧ c ∉ ['\\', '"', '\''] := by
  obtain ⟨d, hd, rfl⟩ := List.mem_map.mp hc
  refine hexDigit_plain d ?_
  simp only [List.mem_cons, List.not_mem_nil, or_false] at hd
  omega

/-- What is written for a character is sealed. -/
theorem escape_sealed (quote : Quote) (c : Char) : Sealed quote (escape quote c) := by
  obtain ⟨h, hback, hquote, -⟩ | ⟨d, h, -⟩ | h := escape_cases quote c
  · exact h ▸ .bare hback hquote
  · exact h ▸ .backslash quote d
  · rw [h]
    refine (Sealed.backslash quote 'u').append (.bares fun e he => ?_)
    have hplain := (fourHexDigits_plain he).2
    simp only [List.mem_cons, List.not_mem_nil, or_false, not_or] at hplain
    cases quote
    · exact ⟨hplain.1, hplain.2.1⟩
    · exact ⟨hplain.1, hplain.2.2⟩

/-- What is written for a character has no control character in it, not even if it is one. -/
theorem isControl_escape {quote : Quote} {c d : Char} (hd : d ∈ escape quote c) :
    isControl d = false := by
  obtain ⟨h, -, -, hc⟩ | ⟨e, h, he⟩ | h := escape_cases quote c
  · rw [h, List.mem_singleton] at hd
    exact hd ▸ hc
  · rw [h, List.mem_cons, List.mem_singleton] at hd
    rcases hd with rfl | rfl
    · decide
    · exact he
  · rw [h, List.mem_append] at hd
    rcases hd with hd | hd
    · simp only [List.mem_cons, List.not_mem_nil, or_false] at hd
      rcases hd with rfl | rfl <;> decide
    · exact (fourHexDigits_plain hd).1

/-! ## What is written for a text -/

/-- **Between the quotes** there is no quote that could be taken for the last one. -/
theorem written_sealed (quote : Quote) (cs : List Char) :
    Sealed quote (cs.flatMap (escape quote)) :=
  .flatMap fun c _ => escape_sealed quote c

/-- What is written for a text has no control character in it. -/
theorem isControl_written {quote : Quote} {cs : List Char} {c : Char}
    (hc : c ∈ written quote cs) : isControl c = false := by
  have hquote : isControl quote.char = false := by cases quote <;> decide
  rw [written, List.cons_append, List.mem_cons, List.mem_append, List.mem_singleton] at hc
  rcases hc with rfl | hc | rfl
  · exact hquote
  · obtain ⟨d, -, hd⟩ := List.mem_flatMap.mp hc
    exact isControl_escape hd
  · exact hquote

/-- **Only the first and the last quote** are not escaped. -/
theorem unescaped_iff (quote : Quote) (cs : List Char) (i : Nat) :
    (written quote cs)[i]? = some quote.char ∧ isEscaped (written quote cs) i = false ↔
      i = 0 ∨ i + 1 = (written quote cs).length := by
  -- The first quote does not escape what comes after it.
  have hfirst : isEscaped [quote.char] [quote.char].length = false := by cases quote <;> decide
  have hlength : (written quote cs).length = (cs.flatMap (escape quote)).length + 2 := by
    rw [written, List.length_append, List.length_cons, List.length_singleton]
  have hlast := (written_sealed quote cs).unescaped_iff
  rw [hlength, written, List.cons_append]
  cases i with
  | zero => simp [isEscaped]
  | succ i =>
    have hrest := isEscaped_append_right hfirst (cs.flatMap (escape quote) ++ [quote.char]) i
    rw [List.length_singleton, Nat.add_comm 1 i, List.singleton_append] at hrest
    rw [List.getElem?_cons_succ, hrest, hlast i]
    omega

/-- **A string is read back as it was written**, in any session, and what follows it is left alone.
What is written has no control characters, and its only bare quotes are the first and the last
character. -/
theorem readString_written {σ : Type} (memory : σ) (quote : Quote) (cs rest : List Char) :
    ReadM.Yields (ReadM.onCursor Lexeme.string) memory (written quote cs ++ rest) (cs, quote) memory
        rest ∧
      (∀ c ∈ written quote cs, isControl c = false) ∧
      ∀ i, (written quote cs)[i]? = some quote.char ∧ isEscaped (written quote cs) i = false ↔
        i = 0 ∨ i + 1 = (written quote cs).length :=
  ⟨.onCursor (Lexeme.yields_string quote cs rest) memory, fun _ hc => isControl_written hc,
    unescaped_iff quote cs⟩

end SExpr.Quoted
