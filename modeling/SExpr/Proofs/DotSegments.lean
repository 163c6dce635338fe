import SExpr.Proofs.Segments

/-!
# Dot segments

Dot segments are removed from a path in one pass over its text. Two other ways to tell what that
does come to the same.

* **`rewrite`**: the text is rewritten at its beginning, rule by rule, until nothing is left of it.
  Each round makes it shorter, so this ends.
* **`clean`**: the segments of a path that begins with a slash are taken one by one, and those that
  are kept make up a stack.
* **`removeDots_eq_clean`**: both, and what is left of a path.
-/

namespace SExpr.Reference

open Text

/-- A segment that means "here" or "one up". -/
abbrev IsDot (segment : List Char) : Prop := segment = ['.'] ∨ segment = ['.', '.']

/-- A text whose first segment is known ends there, or goes on with a slash. -/
theorem eq_of_takeWhile_eq {cs segment : List Char} (h : cs.takeWhile (· != '/') = segment) :
    cs = segment ∨ ∃ rest, cs = segment ++ '/' :: rest := by
  have happend := List.takeWhile_append_dropWhile (p := (· != '/')) (l := cs)
  rw [h] at happend
  obtain hdrop | ⟨rest, hdrop⟩ := (isRooted_dropWhile cs).cases
  · rw [hdrop, List.append_nil] at happend
    exact .inl happend.symm
  · rw [hdrop] at happend
    exact .inr ⟨rest, happend.symm⟩

/-! ## One segment at a time -/

/-- A segment after a slash is kept with its slash, if it is no dot segment. -/
theorem removeDotsAfter_slash (kept : List Char) {tail : List Char}
    (h : ¬ IsDot (tail.takeWhile (· != '/'))) :
    removeDotsAfter kept ('/' :: tail) = removeDotsAfter
      (('/' :: tail.takeWhile (· != '/')).reverse ++ kept) (tail.dropWhile (· != '/')) := by
  rw [removeDotsAfter, if_pos rfl, if_neg h, List.reverse_cons, List.append_assoc]
  rfl

/-- So is a segment at the beginning. -/
theorem removeDotsAfter_cons (kept : List Char) {c : Char} (hc : c ≠ '/') {tail : List Char}
    (h : ¬ IsDot (c :: tail.takeWhile (· != '/'))) :
    removeDotsAfter kept (c :: tail) = removeDotsAfter
      ((c :: tail.takeWhile (· != '/')).reverse ++ kept) (tail.dropWhile (· != '/')) := by
  rw [removeDotsAfter, if_neg hc, if_neg h]

/-- A slash at the end is kept. -/
theorem removeDotsAfter_last (kept : List Char) :
    removeDotsAfter kept ['/'] = ('/' :: kept).reverse := by
  rw [removeDotsAfter_slash kept (by decide)]
  exact removeDotsAfter.eq_1 _

/-! ## Rewriting -/

/-- A round of rewriting, from what has been kept (in reverse) and what is left of the path. A dot
segment goes, together with the last segment kept if it means "one up"; any other is kept. -/
def rewrite (kept : List Char) : List Char → List Char × List Char
  | [] => (kept, [])
  | '.' :: '.' :: '/' :: rest => (kept, rest)
  | '.' :: '/' :: rest => (kept, rest)
  | '/' :: '.' :: '/' :: rest => (kept, '/' :: rest)
  | ['/', '.'] => (kept, ['/'])
  | '/' :: '.' :: '.' :: '/' :: rest => (dropSegment kept, '/' :: rest)
  | ['/', '.', '.'] => (dropSegment kept, ['/'])
  | ['.'] => (kept, [])
  | ['.', '.'] => (kept, [])
  | c :: tail =>
    ((c :: tail.takeWhile (· != '/')).reverse ++ kept, tail.dropWhile (· != '/'))

/-- A round makes the text shorter. -/
theorem length_rewrite_lt (kept : List Char) {path : List Char} (h : path ≠ []) :
    (rewrite kept path).2.length < path.length := by
  fun_cases rewrite kept path with
  | case1 => exact absurd rfl h
  | case10 c tail =>
    have hle := length_dropWhile_le (· != '/') tail
    simp only [List.length_cons]
    omega
  | _ => simp only [List.length_cons, List.length_nil]; omega

/-- **A round of rewriting** makes no difference to what is left in the end. -/
theorem removeDotsAfter_rewrite (kept path : List Char) :
    removeDotsAfter (rewrite kept path).1 (rewrite kept path).2 = removeDotsAfter kept path := by
  fun_cases rewrite kept path with
  | case1 => rfl
  | case2 rest | case3 rest | case4 rest | case6 rest | case8 | case9 =>
    conv_rhs => rw [removeDotsAfter]
    simp
  | case5 =>
    conv_rhs => rw [removeDotsAfter]
    simpa using removeDotsAfter_last kept
  | case7 =>
    conv_rhs => rw [removeDotsAfter]
    simpa using removeDotsAfter_last (dropSegment kept)
  | case10 c tail hup hhere hslash hslashEnd hslashUp hslashUpEnd hhereEnd hupEnd =>
    -- None of the rules before applies, so the segment is no dot segment.
    symm
    by_cases hc : c = '/'
    · subst hc
      refine removeDotsAfter_slash kept ?_
      rintro (hdot | hdot)
      · obtain rfl | ⟨rest, rfl⟩ := eq_of_takeWhile_eq hdot
        · exact hslashEnd rfl rfl
        · exact hslash rest rfl rfl
      · obtain rfl | ⟨rest, rfl⟩ := eq_of_takeWhile_eq hdot
        · exact hslashUpEnd rfl rfl
        · exact hslashUp rest rfl rfl
    · refine removeDotsAfter_cons kept hc ?_
      rintro (hdot | hdot)
      · obtain ⟨rfl, hempty⟩ := List.cons.inj hdot
        obtain rfl | ⟨rest, rfl⟩ := eq_of_takeWhile_eq hempty
        · exact hhereEnd rfl rfl
        · exact hhere rest rfl rfl
      · obtain ⟨rfl, hsecond⟩ := List.cons.inj hdot
        obtain rfl | ⟨rest, rfl⟩ := eq_of_takeWhile_eq hsecond
        · exact hupEnd rfl rfl
        · exact hup rest rfl rfl

/-- **Rewriting ends**, within as many rounds as the path has characters, with what is left of the
path. -/
theorem iterate_rewrite (kept path : List Char) {rounds : Nat} (h : path.length ≤ rounds) :
    (Function.uncurry rewrite)^[rounds] (kept, path) =
      ((removeDotsAfter kept path).reverse, []) := by
  induction rounds generalizing kept path with
  | zero =>
    obtain rfl := List.eq_nil_of_length_eq_zero (Nat.le_zero.mp h)
    rw [removeDotsAfter, List.reverse_reverse]
    rfl
  | succ rounds ih =>
    have hshort : (rewrite kept path).2.length ≤ rounds := by
      cases path with
      | nil => exact Nat.zero_le rounds
      | cons c tail => have := length_rewrite_lt kept (List.cons_ne_nil c tail); omega
    rw [Function.iterate_succ_apply, Function.uncurry_apply_pair, ← removeDotsAfter_rewrite]
    exact ih _ _ hshort

/-! ## A stack of segments -/

/-- What a segment makes of those kept before it, of which the last one comes first. -/
def keep (kept : List (List Char)) (segment : List Char) : List (List Char) :=
  if segment = ['.'] then kept
  else if segment = ['.', '.'] then kept.tail
  else segment :: kept

/-- The segments left of a path, after those that have been kept: where the last one is a dot
segment, an empty one comes in its place. -/
def clean (kept segments : List (List Char)) : List (List Char) :=
  let left := segments.foldl keep kept
  (if ∃ segment ∈ segments.getLast?, IsDot segment then [] :: left else left).reverse

/-- The path of some segments, each of them after a slash. -/
def ofSegments (segments : List (List Char)) : List Char := segments.flatMap ('/' :: ·)

/-- The segments of a path that is empty or begins with a slash. -/
def segments : List Char → List (List Char)
  | [] => []
  | _ :: tail => tail.splitOn '/'

/-- The first segment, and those after it. -/
theorem segments_slash (tail : List Char) :
    segments ('/' :: tail) =
      tail.takeWhile (· != '/') :: segments (tail.dropWhile (· != '/')) := by
  have happend := List.takeWhile_append_dropWhile (p := (· != '/')) (l := tail)
  have hfirst : (tail.takeWhile (· != '/')).splitOn '/' = [tail.takeWhile (· != '/')] :=
    List.splitOnP_eq_singleton fun c hc =>
      by simpa using bne_of_not_mem (not_mem_takeWhile '/' tail) c hc
  obtain hdrop | ⟨rest, hdrop⟩ := (isRooted_dropWhile tail).cases
  · rw [hdrop, List.append_nil] at happend
    rw [hdrop, segments, segments, ← hfirst, happend]
  · rw [hdrop] at happend ⊢
    calc segments ('/' :: tail)
      _ = (tail.takeWhile (· != '/') ++ '/' :: rest).splitOn '/' := by rw [happend]; rfl
      _ = tail.takeWhile (· != '/') :: rest.splitOn '/' := by
        rw [List.splitOn_append_cons_self, hfirst]; rfl

theorem segments_slash_ne_nil (tail : List Char) : segments ('/' :: tail) ≠ [] := by
  rw [segments_slash]
  exact List.cons_ne_nil _ _

/-- A segment takes effect at once, unless it is a dot segment at the end. -/
theorem clean_cons (kept : List (List Char)) {segment : List Char} {more : List (List Char)}
    (h : more = [] → ¬ IsDot segment) :
    clean kept (segment :: more) = clean (keep kept segment) more := by
  cases more with
  | nil => simp [clean, h rfl]
  | cons next more => simp [clean]

/-- What is kept, in reverse, when it is the path of the segments in a stack. -/
def ofStack (stack : List (List Char)) : List Char := stack.flatMap (·.reverse ++ ['/'])

theorem reverse_ofStack (stack : List (List Char)) :
    (ofStack stack).reverse = ofSegments stack.reverse := by
  simp [ofStack, ofSegments, List.reverse_flatMap, Function.comp_def]

/-- **The last segment is the top of the stack.** -/
theorem dropSegment_ofStack {stack : List (List Char)} (h : ∀ segment ∈ stack, '/' ∉ segment) :
    dropSegment (ofStack stack) = ofStack stack.tail := by
  cases stack with
  | nil => rfl
  | cons segment stack =>
    have hsegment : ∀ c ∈ segment.reverse, (c != '/') = true := fun c hc =>
      bne_of_not_mem (h segment List.mem_cons_self) c (List.mem_reverse.mp hc)
    rw [dropSegment, ofStack, List.flatMap_cons, List.append_assoc,
      List.dropWhile_append_of_pos hsegment]
    rfl

/-- What a dot segment leaves of the stack. -/
theorem ofStack_keep {stack : List (List Char)} (h : ∀ segment ∈ stack, '/' ∉ segment)
    {segment : List Char} (hdot : IsDot segment) :
    ofStack (keep stack segment) =
      if segment = ['.'] then ofStack stack else dropSegment (ofStack stack) := by
  obtain rfl | rfl := hdot
  · rfl
  · exact (dropSegment_ofStack h).symm

theorem not_mem_keep {stack : List (List Char)} (h : ∀ segment ∈ stack, '/' ∉ segment)
    {segment : List Char} (hsegment : '/' ∉ segment) :
    ∀ segment' ∈ keep stack segment, '/' ∉ segment' := by
  unfold keep
  split
  · exact h
  split
  · exact fun segment' hmem => h segment' (List.mem_of_mem_tail hmem)
  · exact List.forall_mem_cons.mpr ⟨hsegment, h⟩

/-- **The pass over the text is the pass over the segments**: what has been kept is the path of the
segments in the stack. -/
theorem removeDotsAfter_ofStack (stack : List (List Char)) (h : ∀ segment ∈ stack, '/' ∉ segment)
    {kept : List Char} (hkept : kept = ofStack stack) {path : List Char} (hpath : IsRooted path) :
    removeDotsAfter kept path = ofSegments (clean stack (segments path)) := by
  fun_induction removeDotsAfter kept path generalizing stack with
  | case1 kept =>
    rw [hkept, reverse_ofStack]
    rfl
  -- A dot segment at the end leaves its slash, as an empty segment would.
  | case2 kept tail rest segment hdot kept' hrest =>
    have hend : segments rest = [] := by rw [hrest]; rfl
    have hkept' : kept' = ofStack (keep stack segment) := by
      rw [ofStack_keep h hdot, ← hkept]
      rfl
    calc ('/' :: kept').reverse
      _ = (ofStack ([] :: keep stack segment)).reverse := by rw [hkept']; rfl
      _ = ofSegments ([] :: keep stack segment).reverse := reverse_ofStack _
      _ = ofSegments (clean stack [segment]) := by simp [clean, hdot]
      _ = ofSegments (clean stack (segments ('/' :: tail))) := by rw [segments_slash, hend]
  -- A dot segment before others is taken out, with the segment before it if it has two dots.
  | case3 kept tail rest segment hdot kept' hrest ih =>
    have hmore : segments rest ≠ [] := by
      obtain hnil | ⟨rest', hrest'⟩ := (isRooted_dropWhile tail).cases
      · exact absurd hnil hrest
      · rw [show rest = '/' :: rest' from hrest']
        exact segments_slash_ne_nil rest'
    rw [segments_slash, clean_cons stack fun hnil => absurd hnil hmore]
    refine ih _ (not_mem_keep h (not_mem_takeWhile '/' tail)) ?_ (isRooted_dropWhile tail)
    rw [ofStack_keep h hdot, ← hkept]
    rfl
  -- Any other segment is kept.
  | case4 kept tail rest segment hdot ih =>
    have hkeep : keep stack segment = segment :: stack := by
      rw [keep, if_neg fun heq => hdot (.inl heq), if_neg fun heq => hdot (.inr heq)]
    rw [segments_slash, clean_cons stack fun _ => hdot]
    refine ih _ (not_mem_keep h (not_mem_takeWhile '/' tail)) ?_ (isRooted_dropWhile tail)
    rw [hkeep, hkept]
    simp [ofStack]
  | case5 kept c tail rest hc => exact absurd (hpath c rfl) hc
  | case6 kept c tail rest hc => exact absurd (hpath c rfl) hc

/-- **Removing dot segments** is rewriting, round after round until nothing is left, and, for a path
that begins with a slash, cleaning the segments after it. No dot segment is left, and there is
nothing to do a second time. -/
theorem removeDots_eq_clean (path : List Char) :
    removeDots ('/' :: path) = ofSegments (clean [] (path.splitOn '/')) ∧
      (Function.uncurry rewrite)^[path.length] ([], path) = ((removeDots path).reverse, []) ∧
      IsDotless (removeDots path) ∧ removeDots (removeDots path) = removeDots path := by
  refine ⟨?_, iterate_rewrite [] path le_rfl, isDotless_removeDots path, ?_⟩
  · exact removeDotsAfter_ofStack [] (List.forall_mem_nil _) rfl (isRooted_slash path)
  · exact removeDots_eq_self_iff.mpr (isDotless_removeDots path)

example : ofSegments (clean [] ("a/b/c/./../../g".toList.splitOn '/')) = "/a/g".toList := by decide

end SExpr.Reference
