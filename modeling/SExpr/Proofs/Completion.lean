import SExpr.Proofs.Splitting

/-!
# References that complete their base

A reference that is what follows the base in a longer text should mean that text again. A fragment
always does, and the last segment of a path does unless the base has something that resolution takes
away: a query, dot segments, or no path to put the segment on.

* **`IsSegment.split`**: a segment is a path and nothing else.
* **`resolve_segment_iff`**: a segment after a base that ends in a slash.
-/

namespace SExpr.Reference

open Text

theorem split_query_of_not_mem {cs : List Char} (h : '?' ∉ cs) : (split cs).query = none := by
  have hmem : '?' ∉ (cutAt '#' cs).1 := fun hc => h ((mem_of_mem_cutAt '#' cs).1 '?' hc)
  show (cutAt '?' (cutAt '#' cs).1).2 = none
  rw [cutAt_of_not_mem hmem]

theorem isRelative_sharp (cs : List Char) : isRelative ('#' :: cs) = true := by
  rw [isRelative_iff, split_sharp]

/-! ## Segments -/

/-- A segment that is no dot segment, with nothing in it that would make it more than a path. -/
structure IsSegment (cs : List Char) : Prop where
  ne_nil : cs ≠ []
  plain : ∀ c ∈ cs, c ∉ ['/', '?', '#', ':']
  dotless : cs ≠ ['.'] ∧ cs ≠ ['.', '.']

theorem IsSegment.not_mem {cs : List Char} (h : IsSegment cs) (c : Char)
    (hc : c ∈ ['/', '?', '#', ':']) : c ∉ cs := fun hmem => h.plain c hmem hc

/-- **A segment** is a path, and has no other parts. -/
theorem IsSegment.split {cs : List Char} (h : IsSegment cs) :
    split cs =
      { scheme := none, authority := none, path := cs, query := none, fragment := none } := by
  refine split_eq_iff.mpr ⟨?_, by simp [compose, part]⟩
  exact
    { scheme := by simp
      authority := by simp
      path := fun c hc hmem => h.plain c hc (.tail _ (List.mem_append_left [':'] hmem))
      query := by simp
      noScheme := by
        rintro - - name rest rfl
        exact absurd (by simp) (h.not_mem ':' (by decide))
      noAuthority := by
        rintro - rest rfl
        exact absurd (by simp) (h.not_mem '/' (by decide)) }

theorem IsSegment.isRelative {cs : List Char} (h : IsSegment cs) : isRelative cs = true := by
  rw [isRelative_iff, h.split]

/-- A segment that follows a slash leaves a path without dot segments if there were none. -/
theorem IsSegment.isDotless_append {cs path : List Char} (h : IsSegment cs)
    (hpath : path.getLast? = some '/') : IsDotless (path ++ cs) ↔ IsDotless path := by
  obtain ⟨init, rfl⟩ := List.getLast?_eq_some_iff.mp hpath
  have hcs : IsDotless cs := by
    rw [isDotless_of_not_mem (h.not_mem '/' (by decide)), not_or]
    exact h.dotless
  have hnil := isDotless_append_slash init []
  rw [List.append_assoc, List.singleton_append, isDotless_append_slash, hnil]
  simp [hcs, isDotless_nil]

/-- After a slash, a segment is put on the path as it is. -/
theorem merge_of_getLast? {base : Reference} (h : base.path.getLast? = some '/')
    (path : List Char) : merge base path = base.path ++ path := by
  obtain ⟨init, hinit⟩ := List.getLast?_eq_some_iff.mp h
  unfold merge
  rw [hinit]
  simp

/-- What a segment means keeps nothing of the base but its parts up to the path. -/
theorem IsSegment.resolve_eq {cs : List Char} (h : IsSegment cs) (base : List Char) :
    resolve base cs =
      (Reference.split base).lead ++ removeDots (merge (Reference.split base) cs) := by
  have hempty : cs.isEmpty = false := by simpa using h.ne_nil
  have hhead : (cs.head? == some '/') = false := by
    rw [beq_eq_false_iff_ne]
    intro hhead
    exact h.not_mem '/' (by decide) (List.mem_of_mem_head? hhead)
  rw [resolve, h.split, under]
  simp [hempty, hhead, compose_eq, lead, part]

/-- A base that ends in a slash has the slash in its path, or has no path. -/
theorem getLast?_path {base : List Char} (hbase : base.getLast? = some '/')
    (hsplit : (split base).lead ++ (split base).path = base) (hpath : (split base).path ≠ []) :
    (split base).path.getLast? = some '/' := by
  rw [← hsplit, List.getLast?_append] at hbase
  cases hlast : (split base).path.getLast? with
  | none => exact absurd (List.getLast?_eq_none_iff.mp hlast) hpath
  | some c => simpa [hlast] using hbase

/-- Without a path, the slash ends two that begin an authority. -/
theorem isSome_authority {base : List Char} (hbase : base.getLast? = some '/')
    (hsplit : (split base).lead ++ (split base).path = base) (hpath : (split base).path = []) :
    (split base).authority.isSome = true := by
  rw [← hsplit, hpath, List.append_nil, lead] at hbase
  cases hauthority : (split base).authority with
  | some name => rfl
  | none =>
    cases hscheme : (split base).scheme with
    | none => simp [hauthority, hscheme, part] at hbase
    | some name => simp [hauthority, hscheme, part] at hbase

/-- **A segment** after a slash is put after the base if the base ends in a path, and has neither a
query nor dot segments. -/
theorem resolve_segment_iff {base cs : List Char} (hbase : base.getLast? = some '/')
    (hsharp : '#' ∉ base) (h : IsSegment cs) :
    resolve base cs = base ++ cs ↔
      '?' ∉ base ∧ (split base).path ≠ [] ∧ IsDotless (split base).path := by
  have hformed := wellFormed_split base
  have hchars : ∀ c ∈ merge (split base) cs, c ≠ '?' := by
    refine forall_mem_merge (by decide) ?_ ?_
    · rintro c hc rfl
      exact hformed.path '?' hc (by decide)
    · rintro c hc rfl
      exact h.not_mem '?' (by decide) hc
  rw [h.resolve_eq]
  by_cases hquery : '?' ∈ base
  · -- The query is lost.
    simp only [hquery, not_true, false_and, iff_false]
    intro heq
    have hmem : '?' ∈ (split base).lead ++ removeDots (merge (split base) cs) := by
      rw [heq]
      exact List.mem_append_left cs hquery
    rcases List.mem_append.mp hmem with hmem | hmem
    · exact hformed.not_mem_lead '?' hmem (by decide)
    · exact forall_mem_removeDotsAfter (by decide) [] _ (by simp) hchars '?' hmem rfl
  have hsplit : (split base).lead ++ (split base).path = base := by
    have happend := lead_append_query base
    rwa [split_query_of_not_mem hquery, part, List.append_nil,
      List.takeWhile_eq_self_iff.mpr (bne_of_not_mem hsharp)] at happend
  simp only [hquery, not_false_eq_true, true_and]
  by_cases hpath : (split base).path = []
  · -- The segment is set off from the authority by one more slash.
    simp only [hpath, ne_eq, not_true, false_and, iff_false]
    have hmerge : merge (split base) cs = ['/'] ++ cs := by
      simp [merge, isSome_authority hbase hsplit hpath, hpath]
    have hdotless : IsDotless (['/'] ++ cs) := (h.isDotless_append rfl).mpr (by decide)
    rw [hmerge, removeDots_eq_self_iff.mpr hdotless]
    intro heq
    rw [hpath, List.append_nil] at hsplit
    have hlength := congrArg List.length heq
    simp [hsplit] at hlength
  · have hlast := getLast?_path hbase hsplit hpath
    have happend : base ++ cs = (split base).lead ++ ((split base).path ++ cs) := by
      rw [← List.append_assoc, hsplit]
    rw [merge_of_getLast? hlast, happend, List.append_cancel_left_eq, removeDots_eq_self_iff,
      h.isDotless_append hlast]
    simp [hpath]

end SExpr.Reference
