import Mathlib
import SExpr.Text.Cut

/-!
# Texts that were cut

The pieces of a text that was cut make up the text again, and a text put together of such pieces is
cut into them.
-/

namespace SExpr.Text

theorem dropWhile_eq_nil {p : Char → Bool} {cs : List Char} (h : ∀ c ∈ cs, p c = true) :
    cs.dropWhile p = [] := by
  have hdrop : (cs ++ []).dropWhile p = [] := List.dropWhile_append_of_pos h
  rwa [List.append_nil] at hdrop

theorem bne_of_not_mem {c : Char} {cs : List Char} (h : c ∉ cs) : ∀ d ∈ cs, (d != c) = true := by
  intro d hd
  rw [bne_iff_ne]
  rintro rfl
  exact h hd

/-- Without the character there is nothing to cut off. -/
theorem cutAt_of_not_mem {c : Char} {cs : List Char} (h : c ∉ cs) : cutAt c cs = (cs, none) := by
  have hall := bne_of_not_mem h
  have htake : (cs ++ []).takeWhile (· != c) = cs ++ [] := List.takeWhile_append_of_pos hall
  rw [List.append_nil] at htake
  rw [cutAt, htake, dropWhile_eq_nil hall, List.tail?_nil]

/-- A text is cut at the first place where the character stands. -/
theorem cutAt_append {c : Char} {cs : List Char} (h : c ∉ cs) (rest : List Char) :
    cutAt c (cs ++ c :: rest) = (cs, some rest) := by
  have hall := bne_of_not_mem h
  rw [cutAt, List.takeWhile_append_of_pos hall, List.dropWhile_append_of_pos hall]
  simp

/-- What comes before and after the cut makes up the text again, with the character between them. -/
theorem eq_append_of_cutAt {e : Char} {cs before after : List Char}
    (h : cutAt e cs = (before, some after)) : cs = before ++ e :: after := by
  rw [cutAt, Prod.mk.injEq] at h
  obtain ⟨rfl, hafter⟩ := h
  have happend := List.takeWhile_append_dropWhile (p := (· != e)) (l := cs)
  cases hdrop : cs.dropWhile (· != e) with
  | nil => simp [hdrop] at hafter
  | cons d ds =>
    have hd := List.head?_dropWhile_not (· != e) cs
    rw [hdrop] at hd hafter happend
    simp only [List.head?_cons, bne_eq_false_iff_eq] at hd
    simp only [List.tail?_cons, Option.some.injEq] at hafter
    rw [hd, hafter] at happend
    exact happend.symm

/-- What comes after a beginning makes up the text with it. -/
theorem eq_append_of_after? {start cs rest : List Char} (h : after? start cs = some rest) :
    cs = start ++ rest := by
  induction start generalizing cs with
  | nil =>
    rw [after?, Option.some.injEq] at h
    rw [h, List.nil_append]
  | cons a start ih =>
    cases cs with
    | nil => simp [after?] at h
    | cons d cs =>
      rw [after?] at h
      split at h
      · next had => rw [ih h, had, List.cons_append]
      · cases h

end SExpr.Text
