import SExpr.Proofs.Resolution

/-!
# Splitting

A text is a reference in one way only. Splitting finds that way and loses nothing, so a reference
without parts means its base, a fragment is put after it, and a reference in full means itself.

* **`Reference.Canonical`**: every part that the text has is told apart from the path.
* **`split_eq_iff`**: splitting finds the canonical parts of a text.
* **`resolve_eq_self_iff`**: which references in full mean themselves.
* **`split_faithful`**: what splitting and resolution keep of a text.
-/

namespace SExpr.Reference

open Text

/-! ## The parts of a text -/

/-- No part has a character that would end it, and the path does not begin with what would be taken
for a scheme or an authority if there is none. -/
structure Canonical (r : Reference) : Prop extends WellFormed r where
  noScheme : r.scheme = none → r.authority = none →
    ∀ name rest, r.path = name ++ ':' :: rest → isScheme name = false
  noAuthority : r.authority = none → ∀ rest, r.path ≠ '/' :: '/' :: rest

/-- Only two slashes begin an authority. -/
theorem cutAuthority_eq_none_iff {cs : List Char} :
    (cutAuthority cs).1 = none ↔ ∀ rest, cs ≠ '/' :: '/' :: rest := by
  unfold cutAuthority
  constructor
  · rintro h rest rfl
    simp [after?] at h
  · intro h
    split
    · next rest heq => exact absurd (eq_append_of_after? heq) (h rest)
    · rfl

/-- A text that begins with a slash has no scheme. -/
theorem cutScheme_slash (cs : List Char) : (cutScheme ('/' :: cs)).1 = none := by
  rw [Option.eq_none_iff_forall_ne_some]
  intro name hname
  obtain ⟨hscheme, rest, hrest⟩ := cutScheme_eq_some_iff.mp hname
  cases name with
  | nil => cases hscheme
  | cons c cs =>
    rw [List.cons_append, List.cons.injEq] at hrest
    exact not_mem_of_isScheme hscheme c List.mem_cons_self (by simp [← hrest.1])

/-- The parts that splitting finds are canonical. -/
theorem canonical_split (cs : List Char) : (split cs).Canonical := by
  refine { wellFormed_split cs with noScheme := ?_, noAuthority := ?_ }
  · intro hscheme hauthority name rest hpath
    -- With neither of the two cut off, the path is what stands before the query.
    have hbody :=
      calc (cutAt '?' (cutAt '#' cs).1).1
        _ = (cutScheme (cutAt '?' (cutAt '#' cs).1).1).2 := (cutScheme_of_none hscheme).symm
        _ = (split cs).path := (cutAuthority_of_none hauthority).symm
        _ = name ++ ':' :: rest := hpath
    rw [Bool.eq_false_iff]
    intro hname
    have hsome := cutScheme_eq_some_iff.mpr ⟨hname, rest, hbody⟩
    exact Option.some_ne_none name (hsome.symm.trans hscheme)
  · intro hauthority rest hpath
    exact cutAuthority_eq_none_iff.mp hauthority rest
      ((cutAuthority_of_none hauthority).symm.trans hpath)

/-! ## The one way to split -/

theorem Canonical.cutScheme_eq {r : Reference} (h : r.Canonical) :
    cutScheme (r.lead ++ r.path) = (r.scheme, part ['/', '/'] r.authority [] ++ r.path) := by
  cases hscheme : r.scheme with
  | some name => rw [lead_append_path hscheme, cutScheme_append (h.scheme name hscheme)]
  | none =>
    have hlead : r.lead ++ r.path = part ['/', '/'] r.authority [] ++ r.path := by
      rw [lead, hscheme, part, List.nil_append]
    rw [hlead]
    have hnone : (cutScheme (part ['/', '/'] r.authority [] ++ r.path)).1 = none := by
      cases hauthority : r.authority with
      | some name => exact cutScheme_slash _
      | none =>
        rw [part, List.nil_append, Option.eq_none_iff_forall_ne_some]
        intro name hname
        obtain ⟨hname, rest, hrest⟩ := cutScheme_eq_some_iff.mp hname
        simp [h.noScheme hscheme hauthority name rest hrest] at hname
    exact Prod.ext hnone (cutScheme_of_none hnone)

theorem Canonical.cutAuthority_eq {r : Reference} (h : r.Canonical) :
    cutAuthority (part ['/', '/'] r.authority [] ++ r.path) = (r.authority, r.path) := by
  cases hauthority : r.authority with
  | some name =>
    obtain ⟨hrooted, hchars⟩ := h.authority name hauthority
    rw [part, List.append_nil, List.append_assoc]
    exact cutAuthority_append (fun hmem => hchars '/' hmem (by simp)) hrooted
  | none =>
    rw [part, List.nil_append]
    have hnone := cutAuthority_eq_none_iff.mpr (h.noAuthority hauthority)
    exact Prod.ext hnone (cutAuthority_of_none hnone)

/-- **Splitting finds the one way** in which canonical parts make up a text. -/
theorem split_eq_iff {cs : List Char} {r : Reference} :
    split cs = r ↔ r.Canonical ∧ r.compose = cs := by
  constructor
  · rintro rfl
    exact ⟨canonical_split cs, compose_split cs⟩
  · rintro ⟨h, rfl⟩
    rw [split_compose_eq h.toWellFormed, h.cutScheme_eq]
    dsimp only
    rw [h.cutAuthority_eq]

/-! ## What is kept -/

/-- All parts but the fragment make up the text before the first sharp sign. -/
theorem lead_append_query (cs : List Char) :
    (split cs).lead ++ (split cs).path ++ part ['?'] (split cs).query [] =
      cs.takeWhile (· != '#') := by
  have hcompose := (compose_split cs).trans (append_part_cutAt '#' cs).symm
  exact List.append_cancel_right hcompose

/-- A reference that has at most a fragment takes the place of the fragment of its base. -/
theorem resolve_of_split {ref : List Char} {fragment : Option (List Char)}
    (h : split ref = { scheme := none, authority := none, path := [], query := none, fragment })
    (base : List Char) :
    resolve base ref = base.takeWhile (· != '#') ++ part ['#'] fragment [] := by
  rw [← lead_append_query base, resolve, h]
  rfl

/-- **A reference without parts** means its base without a fragment. -/
theorem resolve_nil (base : List Char) : resolve base [] = base.takeWhile (· != '#') :=
  (resolve_of_split rfl base).trans (List.append_nil _)

theorem split_sharp (cs : List Char) :
    split ('#' :: cs) =
      { scheme := none, authority := none, path := [], query := none, fragment := some cs } := by
  have hcut : cutAt '#' ([] ++ '#' :: cs) = ([], some cs) := cutAt_append List.not_mem_nil cs
  rw [List.nil_append] at hcut
  rw [split, hcut]
  rfl

/-- **A fragment** is put after its base, in place of the fragment that the base may have. -/
theorem resolve_fragment (base cs : List Char) :
    resolve base ('#' :: cs) = base.takeWhile (· != '#') ++ '#' :: cs := by
  rw [resolve_of_split (split_sharp cs), part, List.append_nil]
  rfl

/-- **A reference in full** means itself if there are no dot segments to remove. -/
theorem resolve_eq_self_iff {cs : List Char} (hscheme : (split cs).scheme.isSome = true)
    (base : List Char) : resolve base cs = cs ↔ IsDotless (split cs).path := by
  refine ⟨fun h => ?_, fun h => resolve_eq_self hscheme h base⟩
  have hcompose := h.trans (compose_split cs).symm
  rw [resolve, under, if_pos hscheme, compose_eq, compose_eq] at hcompose
  -- All parts but the path are the same on both sides.
  have hpath := List.append_cancel_right (List.append_cancel_right hcompose)
  exact removeDots_eq_self_iff.mp (List.append_cancel_left hpath)

/-- **Splitting loses nothing.** The parts of a text make it up again, and no other canonical parts
do. So nothing, as a reference, means its base up to the fragment; a fragment means the same with
the fragment after it; and a reference in full means itself under every base if and only if its path
has no dot segments. -/
theorem split_faithful :
    (∀ cs, (split cs).compose = cs ∧ ∀ r, split cs = r ↔ r.Canonical ∧ r.compose = cs) ∧
      (∀ base, resolve base [] = base.takeWhile (· != '#')) ∧
      (∀ base cs, resolve base ('#' :: cs) = base.takeWhile (· != '#') ++ '#' :: cs) ∧
      ∀ cs, (split cs).scheme.isSome = true →
        ∀ base, resolve base cs = cs ↔ IsDotless (split cs).path :=
  ⟨fun cs => ⟨compose_split cs, fun _ => split_eq_iff⟩, resolve_nil, resolve_fragment,
    fun _ hscheme => resolve_eq_self_iff hscheme⟩

/-- An authority and a path without characters, and separators where they separate nothing. -/
theorem split_faithful_empty :
    let cs := "s://?q?//a:b#f#".toList
    let r : Reference :=
      { scheme := some ['s'], authority := some [], path := []
        query := some "q?//a:b".toList, fragment := some "f#".toList }
    (split cs).scheme.isSome = true ∧ split cs = r ∧ r.Canonical ∧ r.compose = cs ∧
      resolve cs [] = "s://?q?//a:b".toList ∧ resolve cs "#".toList = "s://?q?//a:b#".toList ∧
      ∀ base, resolve base cs = cs := by
  intro cs r
  obtain ⟨hsplit, hnil, hfragment, hself⟩ := split_faithful
  have hscheme : (split cs).scheme.isSome = true := by decide
  have hcs : split cs = r := by decide
  obtain ⟨hcanonical, hcompose⟩ := ((hsplit cs).2 r).mp hcs
  exact ⟨hscheme, hcs, hcanonical, hcompose, hnil cs, hfragment cs [],
    fun base => (hself cs hscheme base).mpr (by decide)⟩

end SExpr.Reference
