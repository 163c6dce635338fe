import SExpr.Proofs.Cut
import SExpr.Reference

/-!
# Segments of paths

The slashes of a path cut it into segments. Removing dot segments leaves none of them, and leaves a
path without them as it is.

* **`IsDotless`**: no segment of the path is a dot segment.
* **`isDotless_removeDots`**: a path from which they have been removed is so.
* **`removeDots_eq_self_iff`**: only such paths are left as they are.
* **`IsRooted.removeDots`**: a path that begins with a slash still does so.
-/

namespace SExpr.Reference

open Text

/-! ## Where segments begin and end -/

/-- No segment of the path is `.` or `..`. -/
def IsDotless (path : List Char) : Prop :=
  ∀ segment ∈ path.splitOn '/', segment ≠ ['.'] ∧ segment ≠ ['.', '.']

instance (path : List Char) : Decidable (IsDotless path) := by
  unfold IsDotless
  infer_instance

/-- The path is empty or begins with a slash. -/
def IsRooted (path : List Char) : Prop := ∀ c ∈ path.head?, c = '/'

theorem isRooted_nil : IsRooted [] := by simp [IsRooted]

theorem isRooted_slash (path : List Char) : IsRooted ('/' :: path) := by simp [IsRooted]

/-- A rooted path is empty, or a slash and the rest. -/
theorem IsRooted.cases {path : List Char} (h : IsRooted path) :
    path = [] ∨ ∃ rest, path = '/' :: rest := by
  cases path with
  | nil => exact .inl rfl
  | cons c rest => exact .inr ⟨rest, by rw [h c rfl]⟩

/-- Rooted paths may be put together. -/
theorem IsRooted.append {xs ys : List Char} (hxs : IsRooted xs) (hys : IsRooted ys) :
    IsRooted (xs ++ ys) := by
  obtain rfl | ⟨rest, rfl⟩ := hxs.cases
  · exact hys
  · exact isRooted_slash _

theorem IsRooted.of_append {xs ys : List Char} (h : IsRooted (xs ++ ys)) : IsRooted xs := by
  cases xs with
  | nil => exact isRooted_nil
  | cons c xs => exact h

/-- From its first slash on, a path is rooted. -/
theorem isRooted_dropWhile (cs : List Char) : IsRooted (cs.dropWhile (· != '/')) := by
  intro c hc
  have hstop := List.head?_dropWhile_not (· != '/') cs
  rw [Option.mem_def.mp hc] at hstop
  simpa using hstop

theorem not_mem_takeWhile (c : Char) (cs : List Char) : c ∉ cs.takeWhile (· != c) := by
  intro hmem
  simpa using List.mem_takeWhile_imp hmem

theorem isDotless_nil : IsDotless [] := by decide

/-- A slash ends a segment and begins another one. -/
theorem isDotless_append_slash (xs ys : List Char) :
    IsDotless (xs ++ '/' :: ys) ↔ IsDotless xs ∧ IsDotless ys := by
  unfold IsDotless
  rw [List.splitOn_append_cons_self, List.forall_mem_append]

/-- Where a path goes on with a slash, a segment ends. -/
theorem isDotless_append (xs : List Char) {ys : List Char} (hys : IsRooted ys) :
    IsDotless (xs ++ ys) ↔ IsDotless xs ∧ IsDotless ys := by
  obtain rfl | ⟨rest, rfl⟩ := hys.cases
  · simp [isDotless_nil]
  · have hslash : IsDotless ('/' :: rest) ↔ IsDotless [] ∧ IsDotless rest :=
      isDotless_append_slash [] rest
    rw [isDotless_append_slash, hslash]
    simp [isDotless_nil]

/-- A segment alone has no dot segment in it if it is none. -/
theorem isDotless_of_not_mem {segment : List Char} (h : '/' ∉ segment) :
    IsDotless segment ↔ ¬ (segment = ['.'] ∨ segment = ['.', '.']) := by
  have hsplit : segment.splitOn '/' = [segment] :=
    List.splitOnP_eq_singleton fun c hc => by simpa using bne_of_not_mem h c hc
  rw [IsDotless, hsplit, List.forall_mem_singleton, not_or]

/-- The first segment of a path, and the rest of it. -/
theorem isDotless_takeWhile_dropWhile (cs : List Char) :
    IsDotless cs ↔ IsDotless (cs.takeWhile (· != '/')) ∧ IsDotless (cs.dropWhile (· != '/')) := by
  have h := isDotless_append (cs.takeWhile (· != '/')) (isRooted_dropWhile cs)
  rwa [List.takeWhile_append_dropWhile] at h

/-- A segment after a slash, and the rest of the path. -/
theorem isDotless_slash (tail : List Char) :
    IsDotless ('/' :: tail) ↔
      ¬ (tail.takeWhile (· != '/') = ['.'] ∨ tail.takeWhile (· != '/') = ['.', '.']) ∧
        IsDotless (tail.dropWhile (· != '/')) := by
  have h := isDotless_append_slash [] tail
  rw [isDotless_takeWhile_dropWhile tail, isDotless_of_not_mem (not_mem_takeWhile '/' tail)] at h
  simpa [isDotless_nil] using h

/-- A segment at the beginning, and the rest of the path. -/
theorem isDotless_cons {c : Char} (hc : c ≠ '/') (tail : List Char) :
    IsDotless (c :: tail) ↔
      ¬ (c :: tail.takeWhile (· != '/') = ['.'] ∨ c :: tail.takeWhile (· != '/') = ['.', '.']) ∧
        IsDotless (tail.dropWhile (· != '/')) := by
  have hsegment : '/' ∉ c :: tail.takeWhile (· != '/') := by
    simpa [Ne.symm hc] using not_mem_takeWhile '/' tail
  have h := isDotless_append (c :: tail.takeWhile (· != '/')) (isRooted_dropWhile tail)
  rwa [List.cons_append, List.takeWhile_append_dropWhile, isDotless_of_not_mem hsegment] at h

/-! ## Removal -/

/-- **A path without dot segments is kept.** -/
theorem removeDotsAfter_of_isDotless (kept path : List Char) (h : IsDotless path) :
    removeDotsAfter kept path = kept.reverse ++ path := by
  fun_induction removeDotsAfter kept path with
  | case1 kept => rw [List.append_nil]
  | case2 kept tail rest segment hdots => exact absurd hdots ((isDotless_slash tail).mp h).1
  | case3 kept tail rest segment hdots => exact absurd hdots ((isDotless_slash tail).mp h).1
  | case4 kept tail rest segment hdots ih =>
    rw [ih ((isDotless_slash tail).mp h).2]
    simp [segment, rest]
  | case5 kept c tail rest hc segment hdots => exact absurd hdots ((isDotless_cons hc tail).mp h).1
  | case6 kept c tail rest hc segment hdots ih =>
    rw [ih ((isDotless_cons hc tail).mp h).2]
    simp [segment, rest]

/-- What stands before the last segment. -/
theorem dropSegment_spec (kept : List Char) :
    ∃ rest, kept.reverse = (dropSegment kept).reverse ++ rest ∧
      (dropSegment kept = [] ∨ IsRooted rest) := by
  have happend := List.takeWhile_append_dropWhile (p := (· != '/')) (l := kept)
  unfold dropSegment
  rcases (isRooted_dropWhile kept).cases with hdrop | ⟨ds, hdrop⟩
  · exact ⟨kept.reverse, by simp [hdrop], .inl (by simp [hdrop])⟩
  · refine ⟨'/' :: (kept.takeWhile (· != '/')).reverse, ?_, .inr (isRooted_slash _)⟩
    rw [hdrop] at happend ⊢
    rw [← congrArg List.reverse happend]
    simp

/-- To drop the last segment of a path without dot segments leaves one without them. -/
theorem isDotless_dropSegment {kept : List Char} (h : IsDotless kept.reverse) :
    IsDotless (dropSegment kept).reverse := by
  obtain ⟨rest, hrest, hnil | hrooted⟩ := dropSegment_spec kept
  · rw [hnil]
    exact isDotless_nil
  · rw [hrest, isDotless_append _ hrooted] at h
    exact h.1

theorem IsRooted.dropSegment {kept : List Char} (h : IsRooted kept.reverse) :
    IsRooted (dropSegment kept).reverse := by
  obtain ⟨rest, hrest, -⟩ := dropSegment_spec kept
  rw [hrest] at h
  exact h.of_append

/-- What a dot segment leaves of the path before it. -/
theorem isDotless_ite_dropSegment {kept segment : List Char} (h : IsDotless kept.reverse) :
    IsDotless (if segment = ['.'] then kept else dropSegment kept).reverse := by
  split
  · exact h
  · exact isDotless_dropSegment h

/-- **What is kept and what is still to come** make up a path without dot segments. -/
theorem isDotless_removeDotsAfter (kept path : List Char) (hkept : IsDotless kept.reverse)
    (hpath : kept = [] ∨ IsRooted path) : IsDotless (removeDotsAfter kept path) := by
  -- A segment that has been kept ends where the rest of the path begins.
  fun_induction removeDotsAfter kept path with
  | case1 kept => exact hkept
  | case2 kept tail rest segment hdots =>
    rw [List.reverse_cons, isDotless_append _ (isRooted_slash [])]
    exact ⟨isDotless_ite_dropSegment hkept, by decide⟩
  | case3 kept tail rest segment hdots kept' hrest ih =>
    exact ih (isDotless_ite_dropSegment hkept) (.inr (isRooted_dropWhile tail))
  | case4 kept tail rest segment hdots ih =>
    refine ih ?_ (.inr (isRooted_dropWhile tail))
    rw [List.reverse_append, List.reverse_reverse, List.reverse_cons, List.append_assoc,
      List.singleton_append, isDotless_append_slash,
      isDotless_of_not_mem (not_mem_takeWhile '/' tail)]
    exact ⟨hkept, hdots⟩
  | case5 kept c tail rest hc segment hdots ih =>
    -- Only at the beginning is there a segment without a slash.
    obtain rfl | hrooted := hpath
    · exact ih hkept (.inl rfl)
    · exact absurd (hrooted c rfl) hc
  | case6 kept c tail rest hc segment hdots ih =>
    obtain rfl | hrooted := hpath
    · refine ih ?_ (.inr (isRooted_dropWhile tail))
      have hsegment : '/' ∉ segment := by
        simpa [segment, Ne.symm hc] using not_mem_takeWhile '/' tail
      rw [List.append_nil, List.reverse_reverse, isDotless_of_not_mem hsegment]
      exact hdots
    · exact absurd (hrooted c rfl) hc

/-- **No dot segments are left** when they have been removed. -/
theorem isDotless_removeDots (path : List Char) : IsDotless (removeDots path) :=
  isDotless_removeDotsAfter [] path isDotless_nil (.inl rfl)

/-- **Only a path without dot segments is left as it is.** -/
theorem removeDots_eq_self_iff {path : List Char} : removeDots path = path ↔ IsDotless path := by
  constructor
  · intro h
    rw [← h]
    exact isDotless_removeDots path
  · exact removeDotsAfter_of_isDotless [] path

/-- The path is rooted if what is kept is, and what is still to come. -/
theorem IsRooted.removeDotsAfter {kept path : List Char} (hkept : IsRooted kept.reverse)
    (hpath : IsRooted path) : IsRooted (removeDotsAfter kept path) := by
  have hdrop {kept segment : List Char} (h : IsRooted kept.reverse) :
      IsRooted (if segment = ['.'] then kept else Reference.dropSegment kept).reverse := by
    split
    · exact h
    · exact h.dropSegment
  fun_induction Reference.removeDotsAfter kept path with
  | case1 kept => exact hkept
  | case2 kept tail rest segment hdots =>
    rw [List.reverse_cons]
    exact (hdrop hkept).append (isRooted_slash [])
  | case3 kept tail rest segment hdots kept' hrest ih =>
    exact ih (hdrop hkept) (isRooted_dropWhile tail)
  | case4 kept tail rest segment hdots ih =>
    refine ih ?_ (isRooted_dropWhile tail)
    rw [List.reverse_append, List.reverse_cons, List.append_assoc]
    exact hkept.append (isRooted_slash _)
  | case5 kept c tail rest hc => exact absurd (hpath c rfl) hc
  | case6 kept c tail rest hc => exact absurd (hpath c rfl) hc

theorem IsRooted.removeDots {path : List Char} (h : IsRooted path) : IsRooted (removeDots path) :=
  IsRooted.removeDotsAfter isRooted_nil h

end SExpr.Reference
