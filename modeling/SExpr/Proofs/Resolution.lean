import SExpr.Proofs.Reference
import SExpr.Proofs.Segments

/-!
# Resolution

A reference that was split is put together again as it was. A reference that was put together of
parts is split into the same parts, except that a path without an authority can begin like one. So
what a reference means under an absolute base is absolute itself, and means the same under any base.

* **`compose_split`**: splitting loses nothing.
* **`Reference.WellFormed`**: where each part ends can be told from the text.
* **`split_compose`**: parts are found again.
* **`resolve_absolute`**: what a resolved reference is like.
-/

namespace SExpr.Reference

open Text

/-! ## Splitting -/

/-- What is cut at a character is put together with it. -/
theorem append_part_cutAt (c : Char) (cs : List Char) :
    (cutAt c cs).1 ++ part [c] (cutAt c cs).2 [] = cs := by
  cases hafter : (cutAt c cs).2 with
  | some rest =>
    rw [part, List.append_nil, List.singleton_append]
    exact (eq_append_of_cutAt (Prod.ext rfl hafter)).symm
  | none =>
    have happend := List.takeWhile_append_dropWhile (p := (· != c)) (l := cs)
    rw [cutAt] at hafter ⊢
    cases hdrop : cs.dropWhile (· != c) with
    | nil => rwa [hdrop] at happend
    | cons d ds => simp [hdrop] at hafter

/-- A scheme is put together with its colon. -/
theorem append_cutScheme (cs : List Char) :
    part [] (cutScheme cs).1 [':'] ++ (cutScheme cs).2 = cs := by
  have happend := append_part_cutAt ':' cs
  unfold cutScheme
  split
  · next name rest heq =>
    split
    · rw [heq] at happend
      simpa [part] using happend
    · rfl
  · rfl

/-- An authority is put together with the two slashes before it. -/
theorem append_cutAuthority (cs : List Char) :
    part ['/', '/'] (cutAuthority cs).1 [] ++ (cutAuthority cs).2 = cs := by
  unfold cutAuthority
  split
  · next rest heq =>
    rw [eq_append_of_after? heq, part, List.append_nil, List.append_assoc,
      List.takeWhile_append_dropWhile]
  · rfl

theorem cutScheme_of_none {cs : List Char} (h : (cutScheme cs).1 = none) :
    (cutScheme cs).2 = cs := by
  have happend := append_cutScheme cs
  rwa [h, part, List.nil_append] at happend

theorem cutAuthority_of_none {cs : List Char} (h : (cutAuthority cs).1 = none) :
    (cutAuthority cs).2 = cs := by
  have happend := append_cutAuthority cs
  rwa [h, part, List.nil_append] at happend

/-- **Splitting loses nothing.** -/
theorem compose_split (cs : List Char) : (split cs).compose = cs := by
  have hfragment := append_part_cutAt '#' cs
  have hquery := append_part_cutAt '?' (cutAt '#' cs).1
  have hscheme := append_cutScheme (cutAt '?' (cutAt '#' cs).1).1
  have hauthority := append_cutAuthority (cutScheme (cutAt '?' (cutAt '#' cs).1).1).2
  show part [] (cutScheme (cutAt '?' (cutAt '#' cs).1).1).1 [':'] ++
    part ['/', '/'] (cutAuthority (cutScheme (cutAt '?' (cutAt '#' cs).1).1).2).1 [] ++
    (cutAuthority (cutScheme (cutAt '?' (cutAt '#' cs).1).1).2).2 ++
    part ['?'] (cutAt '?' (cutAt '#' cs).1).2 [] ++ part ['#'] (cutAt '#' cs).2 [] = cs
  rw [List.append_assoc (part [] _ _), hauthority, hscheme, hquery, hfragment]

/-! ## Parts that can be told apart -/

/-- Where each part ends can be told from the text: no part has a character that would end it. -/
structure WellFormed (r : Reference) : Prop where
  scheme : ∀ name, r.scheme = some name → isScheme name = true
  authority : ∀ name, r.authority = some name →
    IsRooted r.path ∧ ∀ c ∈ name, c ∉ ['/', '?', '#']
  path : ∀ c ∈ r.path, c ∉ ['?', '#']
  query : ∀ cs, r.query = some cs → '#' ∉ cs

/-- A scheme has none of the characters in it that end a part. -/
theorem not_mem_of_isScheme {name : List Char} (h : isScheme name = true) :
    ∀ c ∈ name, c ∉ [':', '/', '?', '#'] := by
  have hchars : ∀ c ∈ name,
      (c.isAlphanum || c == '+' || c == '-' || c == '.') = true := by
    cases name with
    | nil => simp
    | cons d cs =>
      rw [isScheme, Bool.and_eq_true, List.all_eq_true] at h
      rw [List.forall_mem_cons]
      refine ⟨?_, h.2⟩
      simp [Char.isAlphanum, h.1]
  intro c hc hmem
  have hc := hchars c hc
  simp only [List.mem_cons, List.not_mem_nil, or_false] at hmem
  rcases hmem with rfl | rfl | rfl | rfl <;> exact absurd hc (by decide)

/-- There is a scheme if a name of one stands before a colon. -/
theorem cutScheme_eq_some_iff {cs name : List Char} :
    (cutScheme cs).1 = some name ↔ isScheme name = true ∧ ∃ rest, cs = name ++ ':' :: rest := by
  constructor
  · intro h
    unfold cutScheme at h
    split at h
    · next heq =>
      split at h
      · next hname =>
        cases h
        exact ⟨hname, _, eq_append_of_cutAt heq⟩
      · cases h
    · cases h
  · rintro ⟨hname, rest, rfl⟩
    have hcolon : ':' ∉ name := fun hmem => not_mem_of_isScheme hname ':' hmem (by simp)
    rw [cutScheme, cutAt_append hcolon]
    simp [hname]

theorem cutScheme_append {name : List Char} (hname : isScheme name = true) (rest : List Char) :
    cutScheme (name ++ ':' :: rest) = (some name, rest) := by
  have hcolon : ':' ∉ name := fun hmem => not_mem_of_isScheme hname ':' hmem (by simp)
  rw [cutScheme, cutAt_append hcolon]
  simp [hname]

/-- An authority ends with the first slash, where the path begins. -/
theorem cutAuthority_eq_some {cs name : List Char} (h : (cutAuthority cs).1 = some name) :
    '/' ∉ name ∧ IsRooted (cutAuthority cs).2 := by
  unfold cutAuthority at h ⊢
  split at h
  · cases h
    exact ⟨not_mem_takeWhile '/' _, isRooted_dropWhile _⟩
  · cases h

/-- **The parts of a text** can be told apart. -/
theorem wellFormed_split (cs : List Char) : (split cs).WellFormed := by
  have hbody : ∀ c ∈ (cutAt '?' (cutAt '#' cs).1).1, c ∉ ['?', '#'] := by
    intro c hc hmem
    have hkeep := (mem_of_mem_cutAt '?' (cutAt '#' cs).1).1 c hc
    simp only [List.mem_cons, List.not_mem_nil, or_false] at hmem
    rcases hmem with rfl | rfl
    · exact not_mem_takeWhile '?' _ hc
    · exact not_mem_takeWhile '#' _ hkeep
  -- What stands before the query is made up by the other parts, so none of them has what ends it.
  have hscheme := append_cutScheme (cutAt '?' (cutAt '#' cs).1).1
  have hauthority := append_cutAuthority (cutScheme (cutAt '?' (cutAt '#' cs).1).1).2
  rw [← hscheme, ← hauthority] at hbody
  simp only [List.forall_mem_append] at hbody
  obtain ⟨-, hname, hpath⟩ := hbody
  refine ⟨fun name h => (cutScheme_eq_some_iff.mp h).1, fun name h => ?_, hpath, fun q h => ?_⟩
  · obtain ⟨hslash, hrooted⟩ := cutAuthority_eq_some h
    refine ⟨hrooted, fun c hc hmem => ?_⟩
    have hchar : c ∈ part ['/', '/']
        (cutAuthority (cutScheme (cutAt '?' (cutAt '#' cs).1).1).2).1 [] := by
      rw [show (cutAuthority (cutScheme (cutAt '?' (cutAt '#' cs).1).1).2).1 = some name from h]
      simp [part, hc]
    rcases List.mem_cons.mp hmem with rfl | hmem
    · exact hslash hc
    · exact hname c hchar hmem
  · intro hmem
    exact not_mem_takeWhile '#' cs ((mem_of_mem_cutAt '?' (cutAt '#' cs).1).2 q h '#' hmem)

/-- A part that has been put after a text is found again, or that there is none. -/
theorem cutAt_append_part {c : Char} {cs : List Char} (h : c ∉ cs) (p : Option (List Char)) :
    cutAt c (cs ++ part [c] p []) = (cs, p) := by
  cases p with
  | none =>
    rw [part, List.append_nil]
    exact cutAt_of_not_mem h
  | some rest =>
    rw [part, List.append_nil]
    exact cutAt_append h rest

/-- The text before the path. -/
def lead (r : Reference) : List Char := part [] r.scheme [':'] ++ part ['/', '/'] r.authority []

theorem compose_eq (r : Reference) :
    r.compose = r.lead ++ r.path ++ part ['?'] r.query [] ++ part ['#'] r.fragment [] := rfl

/-- What stands before the path has nothing in it that begins a query or a fragment. -/
theorem WellFormed.not_mem_lead {r : Reference} (h : r.WellFormed) :
    ∀ c ∈ r.lead, c ∉ ['?', '#'] := by
  have hscheme : ∀ c ∈ part [] r.scheme [':'], c ∉ ['?', '#'] :=
    forall_mem_part (p := (· ∉ ['?', '#'])) (by simp) (fun name hname c hc hmem =>
      not_mem_of_isScheme (h.scheme name hname) c hc (by simp_all)) (by simp)
  have hauthority : ∀ c ∈ part ['/', '/'] r.authority [], c ∉ ['?', '#'] :=
    forall_mem_part (p := (· ∉ ['?', '#'])) (by simp) (fun name hname c hc hmem =>
      (h.authority name hname).2 c hc (List.mem_cons_of_mem _ hmem)) (by simp)
  exact List.forall_mem_append.mpr ⟨hscheme, hauthority⟩

/-- The query and the fragment are found again, and all else is in what stands before them. -/
theorem split_compose_eq {r : Reference} (h : r.WellFormed) :
    split r.compose =
      { scheme := (cutScheme (r.lead ++ r.path)).1
        authority := (cutAuthority (cutScheme (r.lead ++ r.path)).2).1
        path := (cutAuthority (cutScheme (r.lead ++ r.path)).2).2
        query := r.query
        fragment := r.fragment } := by
  have hbody : ∀ c ∈ r.lead ++ r.path, c ∉ ['?', '#'] :=
    List.forall_mem_append.mpr ⟨h.not_mem_lead, h.path⟩
  -- The two are cut off in turn, each at the first character that can end what is before it.
  have hfragment : cutAt '#' r.compose =
      (r.lead ++ r.path ++ part ['?'] r.query [], r.fragment) := by
    rw [compose_eq]
    refine cutAt_append_part (fun hmem => ?_) r.fragment
    rcases List.mem_append.mp hmem with hmem | hmem
    · exact hbody '#' hmem (by simp)
    · refine forall_mem_part (p := (· ≠ '#')) (by simp) (fun q hq c hc => ?_) (by simp) '#' hmem
        rfl
      rintro rfl
      exact h.query q hq hc
  have hquery := cutAt_append_part (fun hmem => hbody '?' hmem (by simp)) r.query
  unfold split
  rw [hfragment]
  dsimp only
  rw [hquery]

theorem lead_append_path {r : Reference} {name : List Char} (hscheme : r.scheme = some name) :
    r.lead ++ r.path = name ++ ':' :: (part ['/', '/'] r.authority [] ++ r.path) := by
  rw [lead, hscheme, part]
  simp

/-- **Parts are found again** in the text that they make up. Only a path that has no authority
before it can be taken for one. -/
theorem split_compose {r : Reference} (h : r.WellFormed) {name : List Char}
    (hscheme : r.scheme = some name) :
    split r.compose =
      { r with
        authority := (cutAuthority (part ['/', '/'] r.authority [] ++ r.path)).1
        path := (cutAuthority (part ['/', '/'] r.authority [] ++ r.path)).2 } := by
  rw [split_compose_eq h, lead_append_path hscheme, cutScheme_append (h.scheme name hscheme),
    ← hscheme]

/-- A path that follows an authority is not taken for a part of it. -/
theorem cutAuthority_append {name path : List Char} (hname : '/' ∉ name) (hpath : IsRooted path) :
    cutAuthority ('/' :: '/' :: (name ++ path)) = (some name, path) := by
  have hall := bne_of_not_mem hname
  have hafter : after? ['/', '/'] ('/' :: '/' :: (name ++ path)) = some (name ++ path) := by
    simp [after?]
  rw [cutAuthority, hafter]
  obtain rfl | ⟨rest, rfl⟩ := hpath.cases
  · simp [dropWhile_eq_nil hall, List.takeWhile_eq_self_iff.mpr hall]
  · simp only [List.takeWhile_append_of_pos hall, List.dropWhile_append_of_pos hall]
    simp

/-! ## Resolution -/

/-- A path up to its last slash, and what stands after it. -/
theorem exists_append_file (path : List Char) :
    ∃ file, path = (path.reverse.dropWhile (· != '/')).reverse ++ file ∧ '/' ∉ file := by
  refine ⟨(path.reverse.takeWhile (· != '/')).reverse, ?_, ?_⟩
  · rw [← List.reverse_append, List.takeWhile_append_dropWhile, List.reverse_reverse]
  · rw [List.mem_reverse]
    exact not_mem_takeWhile '/' path.reverse

/-- A path that is put on a rooted one is rooted. -/
theorem isRooted_merge {base : Reference} (hauthority : base.authority.isSome = true)
    (hbase : IsRooted base.path) (path : List Char) : IsRooted (merge base path) := by
  unfold merge
  split
  · exact isRooted_slash path
  · next hempty =>
    -- The path of the base begins with a slash, so something of it stands before the new path.
    obtain ⟨file, hfile, hslash⟩ := exists_append_file base.path
    have hrooted : IsRooted ((base.path.reverse.dropWhile (· != '/')).reverse ++ file) := by
      rw [← hfile]
      exact hbase
    obtain hnil | ⟨rest, hrest⟩ := hrooted.of_append.cases
    · rw [hnil, List.nil_append] at hfile
      obtain hpath | ⟨rest, hpath⟩ := hbase.cases
      · simp [hauthority, hpath] at hempty
      · simp [← hfile, hpath] at hslash
    · rw [hrest]
      exact isRooted_slash _

/-- **What a reference means** under a base has parts that can be told apart. -/
theorem WellFormed.under {base r : Reference} (hbase : base.WellFormed) (hr : r.WellFormed) :
    (base.under r).WellFormed := by
  have hdots {path : List Char} (h : ∀ c ∈ path, c ∉ ['?', '#']) :
      ∀ c ∈ removeDots path, c ∉ ['?', '#'] :=
    forall_mem_removeDotsAfter (by decide) [] path (by simp) h
  unfold Reference.under
  -- The branches of the resolution in turn: a scheme, an authority, no path, and a path.
  split
  · exact ⟨hr.scheme, fun name h => ⟨(hr.authority name h).1.removeDots, (hr.authority name h).2⟩,
      hdots hr.path, hr.query⟩
  split
  · exact ⟨hbase.scheme,
      fun name h => ⟨(hr.authority name h).1.removeDots, (hr.authority name h).2⟩,
      hdots hr.path, hr.query⟩
  split
  · refine ⟨hbase.scheme, hbase.authority, hbase.path, fun q hq => ?_⟩
    rcases Option.or_eq_some_iff.mp hq with hq | ⟨-, hq⟩
    · exact hr.query q hq
    · exact hbase.query q hq
  · have hpath : ∀ c ∈ (if r.path.head? == some '/' then r.path else merge base r.path),
        c ∉ ['?', '#'] := by
      split
      · exact hr.path
      · exact forall_mem_merge (by decide) hbase.path hr.path
    refine ⟨hbase.scheme, fun name h => ⟨IsRooted.removeDots ?_, (hbase.authority name h).2⟩,
      hdots hpath, hr.query⟩
    split
    · next hhead =>
      intro c hc
      rw [beq_iff_eq] at hhead
      rw [hhead] at hc
      exact (Option.some.inj hc).symm
    · exact isRooted_merge (by simp [show base.authority = some name from h])
        (hbase.authority name h).1 r.path

/-- Under a base with a scheme, all references have one. -/
theorem isSome_scheme_under {base : Reference} (hbase : base.scheme.isSome = true)
    (r : Reference) : (base.under r).scheme.isSome = true := by
  unfold under
  split
  · next hr => exact hr
  split
  · exact hbase
  split
  · exact hbase
  · exact hbase

/-- Under a base without dot segments, no reference has any. -/
theorem isDotless_under {base : Reference} (hbase : IsDotless base.path) (r : Reference) :
    IsDotless (base.under r).path := by
  unfold under
  split
  · exact isDotless_removeDots r.path
  split
  · exact isDotless_removeDots r.path
  split
  · exact hbase
  · exact isDotless_removeDots _

/-- What follows an authority has no dot segments if the whole has none. -/
theorem isDotless_cutAuthority {cs : List Char} (h : IsDotless cs) :
    IsDotless (cutAuthority cs).2 := by
  cases hname : (cutAuthority cs).1 with
  | none => rwa [cutAuthority_of_none hname]
  | some name =>
    rw [← append_cutAuthority cs, isDotless_append _ (cutAuthority_eq_some hname).2] at h
    exact h.2

/-- A path without dot segments has none when it is found again. -/
theorem isDotless_split_compose {r : Reference} (h : r.WellFormed) {name : List Char}
    (hscheme : r.scheme = some name) (hpath : IsDotless r.path) :
    IsDotless (split r.compose).path := by
  rw [split_compose h hscheme]
  cases hauthority : r.authority with
  | none =>
    rw [part, List.nil_append]
    exact isDotless_cutAuthority hpath
  | some authority =>
    obtain ⟨hrooted, hchars⟩ := h.authority authority hauthority
    have hslash : '/' ∉ authority := fun hmem => hchars '/' hmem (by simp)
    have hcut := cutAuthority_append hslash hrooted
    rw [part, List.append_nil, List.append_assoc]
    exact (congrArg (fun r => IsDotless r.2) hcut).mpr hpath

/-- A reference in full, without dot segments, means the same under every base. -/
theorem resolve_eq_self {cs : List Char} (hscheme : (split cs).scheme.isSome = true)
    (hpath : IsDotless (split cs).path) (base : List Char) : resolve base cs = cs := by
  rw [resolve, under, if_pos hscheme, removeDots_eq_self_iff.mpr hpath]
  exact compose_split cs

/-! ## Schemes -/

/-- A scheme ends before the first slash, question mark or sharp sign. -/
theorem isRelative_iff (cs : List Char) : isRelative cs = true ↔ (split cs).scheme = none := by
  have hbefore : (cs.takeWhile fun c => c != '/' && c != '?' && c != '#')
      = (cutAt '?' (cutAt '#' cs).1).1.takeWhile (· != '/') := by
    rw [cutAt, cutAt, List.takeWhile_takeWhile, List.takeWhile_takeWhile]
    congr 1
    funext c
    rw [Bool.eq_iff_iff]
    simp [and_assoc]
  have hscheme : (split cs).scheme = (cutScheme (cutAt '?' (cutAt '#' cs).1).1).1 := rfl
  rw [isRelative, hbefore, Option.isNone_iff_eq_none, hscheme]
  -- The rest of the text makes no difference to either side.
  generalize (cutAt '?' (cutAt '#' cs).1).1 = body
  rw [Option.eq_none_iff_forall_ne_some, Option.eq_none_iff_forall_ne_some]
  refine forall_congr' fun name => not_congr ?_
  rw [cutScheme_eq_some_iff, cutScheme_eq_some_iff]
  refine and_congr_right fun hname => ⟨?_, ?_⟩
  · rintro ⟨rest, hrest⟩
    refine ⟨rest ++ body.dropWhile (· != '/'), ?_⟩
    have happend := List.takeWhile_append_dropWhile (p := (· != '/')) (l := body)
    rw [hrest] at happend
    exact happend.symm.trans (by simp)
  · rintro ⟨rest, rfl⟩
    have hslash : '/' ∉ name := fun hmem => not_mem_of_isScheme hname '/' hmem (by simp)
    rw [List.takeWhile_append_of_pos (bne_of_not_mem hslash)]
    exact ⟨rest.takeWhile (· != '/'), by simp⟩

/-- **What a reference means under an absolute base is absolute and stable**: it is not relative,
has no dot segments, and means the same under every base. And a text is relative if resolution finds
no scheme in it. -/
theorem resolve_absolute :
    (∀ base ref, (split base).scheme.isSome = true → IsDotless (split base).path →
      isRelative (resolve base ref) = false ∧ IsDotless (split (resolve base ref)).path ∧
        ∀ other, resolve other (resolve base ref) = resolve base ref) ∧
    ∀ cs, isRelative cs = true ↔ (split cs).scheme = none := by
  refine ⟨fun base ref hscheme hpath => ?_, isRelative_iff⟩
  have hformed := (wellFormed_split base).under (wellFormed_split ref)
  obtain ⟨name, hname⟩ := Option.isSome_iff_exists.mp (isSome_scheme_under hscheme (split ref))
  have hdotless : IsDotless (split (resolve base ref)).path :=
    isDotless_split_compose hformed hname (isDotless_under hpath (split ref))
  have habsolute : (split (resolve base ref)).scheme = some name := by
    rw [resolve, split_compose hformed hname]
    exact hname
  refine ⟨?_, hdotless, resolve_eq_self (by rw [habsolute]; rfl) hdotless⟩
  rw [Bool.eq_false_iff, Ne, isRelative_iff, habsolute]
  simp

/-- A path that goes up further than the base does. -/
theorem resolve_absolute_up :
    let base := "http://a/b/c/d;p?q".toList
    (split base).scheme.isSome = true ∧ IsDotless (split base).path ∧
      isRelative (resolve base "../../../g".toList) = false ∧
      IsDotless (split (resolve base "../../../g".toList)).path ∧
      ∀ other, resolve other (resolve base "../../../g".toList)
        = resolve base "../../../g".toList := by
  intro base
  have hscheme : (split base).scheme.isSome = true := by decide
  have hpath : IsDotless (split base).path := by decide
  exact ⟨hscheme, hpath, resolve_absolute.1 base "../../../g".toList hscheme hpath⟩

end SExpr.Reference
