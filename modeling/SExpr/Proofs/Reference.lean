import SExpr.Proofs.Cut
import SExpr.Reference

/-!
# Characters of references

Resolving a reference brings in no characters but those of the reference and of the base, and the
separators between the parts.

* **`Reference.Holds`**: the characters of all parts have a property.
* **`Reference.forall_mem_resolve`**: so do those of the resolved reference, if the separators do.
-/

namespace SExpr.Reference

open Text

variable {p : Char → Prop}

/-- The characters of all parts have the property. -/
structure Holds (p : Char → Prop) (r : Reference) : Prop where
  scheme : ∀ cs, r.scheme = some cs → ∀ c ∈ cs, p c
  authority : ∀ cs, r.authority = some cs → ∀ c ∈ cs, p c
  path : ∀ c ∈ r.path, p c
  query : ∀ cs, r.query = some cs → ∀ c ∈ cs, p c
  fragment : ∀ cs, r.fragment = some cs → ∀ c ∈ cs, p c

/-- To cut a text brings in no characters. -/
theorem mem_of_mem_cutAt (e : Char) (cs : List Char) :
    (∀ c ∈ (cutAt e cs).1, c ∈ cs) ∧ ∀ rest, (cutAt e cs).2 = some rest → ∀ c ∈ rest, c ∈ cs := by
  refine ⟨fun c hc => (List.takeWhile_sublist _).mem hc, fun rest hrest c hc => ?_⟩
  rw [eq_append_of_cutAt (Prod.ext rfl hrest), List.mem_append]
  exact .inr (List.mem_cons_of_mem e hc)

/-- The scheme is cut off at a colon. What is cut off may turn out to be none, and then nothing is
cut off. -/
theorem forall_mem_cutScheme {cs : List Char} (h : ∀ c ∈ cs, p c) :
    (∀ name, (cutScheme cs).1 = some name → ∀ c ∈ name, p c) ∧ ∀ c ∈ (cutScheme cs).2, p c := by
  obtain ⟨hname, hrest⟩ := mem_of_mem_cutAt ':' cs
  unfold cutScheme
  split
  · next name rest heq =>
    rw [heq] at hname hrest
    split
    · refine ⟨?_, fun c hc => h c (hrest rest rfl c hc)⟩
      rintro _ ⟨⟩ c hc
      exact h c (hname c hc)
    · exact ⟨by simp, h⟩
  · exact ⟨by simp, h⟩

/-- The authority goes from two slashes up to the next one. -/
theorem forall_mem_cutAuthority {cs : List Char} (h : ∀ c ∈ cs, p c) :
    (∀ name, (cutAuthority cs).1 = some name → ∀ c ∈ name, p c) ∧
      ∀ c ∈ (cutAuthority cs).2, p c := by
  unfold cutAuthority
  split
  · next rest heq =>
    rw [eq_append_of_after? heq] at h
    have hrest : ∀ c ∈ rest, p c := fun c hc => h c (List.mem_append_right _ hc)
    refine ⟨?_, fun c hc => hrest c ((List.dropWhile_sublist _).mem hc)⟩
    rintro _ ⟨⟩ c hc
    exact hrest c ((List.takeWhile_sublist _).mem hc)
  · exact ⟨by simp, h⟩

/-- The parts of a text have no characters but its own. -/
theorem holds_split {cs : List Char} (h : ∀ c ∈ cs, p c) : (split cs).Holds p := by
  -- The parts are cut off in this order: fragment, query, scheme, authority. The path is left.
  obtain ⟨hcs₁, hfragment⟩ := mem_of_mem_cutAt '#' cs
  obtain ⟨hcs₂, hquery⟩ := mem_of_mem_cutAt '?' (cutAt '#' cs).1
  have hbody : ∀ c ∈ (cutAt '?' (cutAt '#' cs).1).1, p c := fun c hc => h c (hcs₁ c (hcs₂ c hc))
  obtain ⟨hscheme, hrest⟩ := forall_mem_cutScheme hbody
  obtain ⟨hauthority, hpath⟩ := forall_mem_cutAuthority hrest
  exact
    { scheme := hscheme
      authority := hauthority
      path := hpath
      query := fun cs hcs c hc => h c (hcs₁ c (hquery cs hcs c hc))
      fragment := fun cs hcs c hc => h c (hfragment cs hcs c hc) }

theorem forall_mem_dropSegment {kept : List Char} (h : ∀ c ∈ kept, p c) :
    ∀ c ∈ dropSegment kept, p c :=
  fun c hc => h c ((List.dropWhile_sublist _).mem (List.mem_of_mem_tail hc))

/-- Dot segments are removed, and at most a slash is added. -/
theorem forall_mem_removeDotsAfter (hslash : p '/') (kept path : List Char)
    (hkept : ∀ c ∈ kept, p c) (hpath : ∀ c ∈ path, p c) :
    ∀ c ∈ removeDotsAfter kept path, p c := by
  have htake {tail : List Char} (h : ∀ c ∈ tail, p c) : ∀ c ∈ tail.takeWhile (· != '/'), p c :=
    fun c hc => h c ((List.takeWhile_sublist _).mem hc)
  have hdrop {tail : List Char} (h : ∀ c ∈ tail, p c) : ∀ c ∈ tail.dropWhile (· != '/'), p c :=
    fun c hc => h c ((List.dropWhile_sublist _).mem hc)
  have happend {xs ys : List Char} (hxs : ∀ c ∈ xs, p c) (hys : ∀ c ∈ ys, p c) :
      ∀ c ∈ xs.reverse ++ ys, p c := by
    intro c hc
    rcases List.mem_append.mp hc with hc | hc
    · exact hxs c (List.mem_reverse.mp hc)
    · exact hys c hc
  have hsegment {kept segment : List Char} (h : ∀ c ∈ kept, p c) :
      ∀ c ∈ (if segment = ['.'] then kept else dropSegment kept), p c := by
    split
    · exact h
    · exact forall_mem_dropSegment h
  -- The cases are those of the next segment: none, dots at the end, dots, and any other.
  fun_induction removeDotsAfter kept path with
  | case1 kept => exact fun c hc => hkept c (List.mem_reverse.mp hc)
  | case2 kept tail rest segment hdots =>
    intro c hc
    rcases List.mem_cons.mp (List.mem_reverse.mp hc) with rfl | hc
    · exact hslash
    · exact hsegment hkept c hc
  | case3 kept tail rest segment hdots kept' hrest ih =>
    rw [List.forall_mem_cons] at hpath
    exact ih (hsegment hkept) (hdrop hpath.2)
  | case4 kept tail rest segment hdots ih =>
    rw [List.forall_mem_cons] at hpath
    exact ih (happend (htake hpath.2) (List.forall_mem_cons.mpr ⟨hslash, hkept⟩)) (hdrop hpath.2)
  | case5 kept d tail rest hd segment hdots ih =>
    rw [List.forall_mem_cons] at hpath
    exact ih hkept fun c hc => hdrop hpath.2 c (List.mem_of_mem_tail hc)
  | case6 kept d tail rest hd segment hdots ih =>
    rw [List.forall_mem_cons] at hpath
    exact ih (happend (List.forall_mem_cons.mpr ⟨hpath.1, htake hpath.2⟩) hkept) (hdrop hpath.2)

/-- To merge two paths brings in nothing but a slash. -/
theorem forall_mem_merge (hslash : p '/') {base : Reference} (hbase : ∀ c ∈ base.path, p c)
    {path : List Char} (hpath : ∀ c ∈ path, p c) : ∀ c ∈ merge base path, p c := by
  intro c hc
  unfold merge at hc
  split at hc
  · rcases List.mem_cons.mp hc with rfl | hc
    · exact hslash
    · exact hpath c hc
  · rcases List.mem_append.mp hc with hc | hc
    · have hmem := (List.dropWhile_sublist _).mem (List.mem_reverse.mp hc)
      exact hbase c (List.mem_reverse.mp hmem)
    · exact hpath c hc

/-- A reference that is put under a base has the parts of both. -/
theorem Holds.under (hslash : p '/') {base r : Reference} (hbase : base.Holds p)
    (hr : r.Holds p) : (base.under r).Holds p := by
  have hdots {path : List Char} (h : ∀ c ∈ path, p c) : ∀ c ∈ removeDots path, p c :=
    forall_mem_removeDotsAfter hslash [] path (by simp) h
  unfold Reference.under
  split
  · exact { hr with path := hdots hr.path }
  split
  · exact { hr with scheme := hbase.scheme, path := hdots hr.path }
  split
  · refine { hbase with query := fun cs hcs => ?_, fragment := hr.fragment }
    rcases Option.or_eq_some_iff.mp hcs with hcs | ⟨-, hcs⟩
    · exact hr.query cs hcs
    · exact hbase.query cs hcs
  · refine { hbase with path := hdots ?_, query := hr.query, fragment := hr.fragment }
    split
    · exact hr.path
    · exact forall_mem_merge hslash hbase.path hr.path

/-- A part with its separators has the characters of both. -/
theorem forall_mem_part {before after : List Char} {o : Option (List Char)}
    (hbefore : ∀ c ∈ before, p c) (ho : ∀ cs, o = some cs → ∀ c ∈ cs, p c)
    (hafter : ∀ c ∈ after, p c) : ∀ c ∈ part before o after, p c := by
  intro c hc
  cases o with
  | none => simp [part] at hc
  | some cs =>
    rw [part, List.mem_append, List.mem_append] at hc
    rcases hc with (hc | hc) | hc
    · exact hbefore c hc
    · exact ho cs rfl c hc
    · exact hafter c hc

/-- **The characters of a resolved reference** come from the reference, the base and the
separators. -/
theorem forall_mem_resolve (hsep : ∀ c ∈ [':', '/', '?', '#'], p c) {base ref : List Char}
    (hbase : ∀ c ∈ base, p c) (href : ∀ c ∈ ref, p c) : ∀ c ∈ resolve base ref, p c := by
  have h := (holds_split hbase).under (hsep '/' (by decide)) (holds_split href)
  unfold resolve
  generalize (split base).under (split ref) = r at h
  have hnone : ∀ c ∈ ([] : List Char), p c := by simp
  intro c hc
  simp only [compose, List.mem_append] at hc
  rcases hc with (((hc | hc) | hc) | hc) | hc
  · exact forall_mem_part hnone h.scheme (by simpa using hsep ':' (by decide)) c hc
  · exact forall_mem_part (by simpa using hsep '/' (by decide)) h.authority hnone c hc
  · exact h.path c hc
  · exact forall_mem_part (by simpa using hsep '?' (by decide)) h.query hnone c hc
  · exact forall_mem_part (by simpa using hsep '#' (by decide)) h.fragment hnone c hc

end SExpr.Reference
