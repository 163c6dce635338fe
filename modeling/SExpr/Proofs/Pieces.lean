import SExpr.Proofs.Layout

/-!
# What layout leaves alone

The text of a value is made of pieces: the brackets of its lists, the texts of its leaves, and a
separator between two items of a list. Layout keeps all of them, in order. It only chooses what the
separators look like, and may begin a new line between two opening brackets.

* **`Value.pieces`**: the pieces of a value's text, with the abbreviations in force at each leaf.
* **`Sets`**: the texts in which the pieces can be set.
* **`sets_format`**: the text of a value sets the same pieces, whatever the layout.
-/

namespace SExpr

/-- What the text of a value is made of. -/
inductive Piece where
  | opener
  | closer
  /-- What stands between two items of a list. -/
  | separator
  | leaf (text : List Char)
  deriving DecidableEq

/-- The text of a piece on one line. -/
def Piece.text : Piece → List Char
  | opener => ['(']
  | closer => [')']
  | separator => [' ']
  | leaf text => text

/-- The text sets the pieces: a separator can be any gap, a new line can begin between two opening
brackets, and all else is as on one line. -/
inductive Sets : List Piece → List Char → Prop where
  | nil : Sets [] []
  | opener {ps : List Piece} {t : List Char} (h : Sets ps t) : Sets (.opener :: ps) ('(' :: t)
  | openers {ps : List Piece} {t : List Char} (n : Nat) (h : Sets (.opener :: ps) t) :
      Sets (.opener :: .opener :: ps) ('(' :: '\n' :: (List.replicate n ' ' ++ t))
  | closer {ps : List Piece} {t : List Char} (h : Sets ps t) : Sets (.closer :: ps) (')' :: t)
  | separator {ps : List Piece} {gap t : List Char} (hgap : IsGap gap) (h : Sets ps t) :
      Sets (.separator :: ps) (gap ++ t)
  | leaf {ps : List Piece} {t : List Char} (text : List Char) (h : Sets ps t) :
      Sets (.leaf text :: ps) (text ++ t)

/-- Texts of pieces that follow one another are set one after the other. -/
theorem Sets.append {ps qs : List Piece} {t u : List Char} (h : Sets ps t) (hu : Sets qs u) :
    Sets (ps ++ qs) (t ++ u) := by
  induction h with
  | nil => exact hu
  | opener _ ih => exact .opener ih
  | openers n _ ih =>
    have hcons := Sets.openers n ih
    simpa using hcons
  | closer _ ih => exact .closer ih
  | separator hgap _ ih =>
    rw [List.append_assoc]
    exact .separator hgap ih
  | leaf text _ ih =>
    rw [List.append_assoc]
    exact .leaf text ih

theorem Sets.single (text : List Char) : Sets [.leaf text] text := by
  have h := Sets.leaf text .nil
  rwa [List.append_nil] at h

namespace Value

mutual

/-- The pieces of a value's text: a list has those of its items between its brackets, and everything
else is a leaf. -/
def pieces (sp : Spelling) (ab : Abbreviations) : Value → List Piece
  | list items =>
    .opener :: [.separator].intercalate (piecesAll sp (ab.scope items) 0 items) ++ [.closer]
  | atom a => [.leaf (compact sp ab (atom a))]
  | vector items => [.leaf (compact sp ab (vector items))]
  | term h t => [.leaf (compact sp ab (term h t))]

/-- The pieces of the items of a list from the `i`-th on. -/
def piecesAll (sp : Spelling) (scope : Nat → Abbreviations) (i : Nat) :
    List Value → List (List Piece)
  | [] => []
  | v :: vs => pieces sp (scope i) v :: piecesAll sp scope (i + 1) vs

end

/-! ## On one line -/

mutual

/-- On one line, the text of a value is that of its pieces. -/
theorem flatMap_pieces (sp : Spelling) : (ab : Abbreviations) → (v : Value) →
    (v.pieces sp ab).flatMap Piece.text = v.compact sp ab
  | ab, list [] => by
    rw [pieces, piecesAll, compact, compactAll]
    rfl
  | ab, list (v :: vs) => by
    rw [pieces, piecesAll, compact, compactAll, Box.intercalate_singleton_cons,
      Box.intercalate_singleton_cons]
    simp only [List.flatMap_cons, List.flatMap_append, List.cons_append, List.append_assoc,
      flatMap_pieces sp _ v, flatMap_piecesAll sp _ 1 vs]
    rfl
  | ab, atom a => by rw [pieces, List.flatMap_singleton, Piece.text]
  | ab, vector items => by rw [pieces, List.flatMap_singleton, Piece.text]
  | ab, term h t => by rw [pieces, List.flatMap_singleton, Piece.text]

/-- The items after the first one, each with a separator before it, have the text of their pieces.
-/
theorem flatMap_piecesAll (sp : Spelling) : (scope : Nat → Abbreviations) → (i : Nat) →
    (vs : List Value) →
    ((piecesAll sp scope i vs).flatMap (.separator :: ·)).flatMap Piece.text
      = (compactAll sp scope i vs).flatMap (' ' :: ·)
  | scope, i, [] => by
    rw [piecesAll, compactAll]
    rfl
  | scope, i, v :: vs => by
    rw [piecesAll, compactAll, List.flatMap_cons, List.flatMap_cons, List.flatMap_append,
      List.flatMap_cons, flatMap_pieces sp _ v, flatMap_piecesAll sp scope (i + 1) vs]
    rfl

end

/-! ## However it is laid out -/

/-- What is a group is a list, so its pieces begin with a bracket. -/
theorem pieces_of_box_eq_group {sp : Spelling} {ab : Abbreviations} {v : Value} {bs : List Box}
    (h : v.box sp ab = .group bs) : ∃ ps, v.pieces sp ab = .opener :: ps := by
  cases v with
  | list items =>
    rw [pieces]
    exact ⟨_, rfl⟩
  | atom a => simp [box] at h
  | vector items => simp [box] at h
  | term k t => simp [box] at h

mutual

/-- **A text that lays out the box of a value sets its pieces.** -/
theorem sets_of_laid (sp : Spelling) : (ab : Abbreviations) → (v : Value) → {t : List Char} →
    (v.box sp ab).Laid t → Sets (v.pieces sp ab) t
  | ab, list [], t, h => by
    rw [box, boxAll] at h
    cases h
    rw [pieces, piecesAll]
    exact .opener (.closer .nil)
  | ab, list (v :: vs), t, h => by
    rw [box, boxAll] at h
    rw [pieces, piecesAll, Box.intercalate_singleton_cons, List.cons_append, List.append_assoc]
    cases h with
    | group hlead hb hbs =>
      have hitems := (sets_of_laid sp _ v hb).append
        ((sets_of_laidRest sp _ 1 vs hbs).append (.closer .nil))
      rcases hlead with rfl | ⟨bs, n, hgroup, rfl⟩
      · exact .opener hitems
      · -- The first item is a list too, and begins a line of its own.
        obtain ⟨ps, hps⟩ := pieces_of_box_eq_group hgroup
        rw [hps] at hitems ⊢
        exact .openers n hitems
  | ab, atom a, t, h => by
    rw [box] at h
    cases h
    rw [pieces]
    exact .single _
  | ab, vector items, t, h => by
    rw [box] at h
    cases h
    rw [pieces]
    exact .single _
  | ab, term k u, t, h => by
    rw [box] at h
    cases h
    rw [pieces]
    exact .single _

/-- The items after the first one set their pieces, each after a separator. -/
theorem sets_of_laidRest (sp : Spelling) : (scope : Nat → Abbreviations) → (i : Nat) →
    (vs : List Value) → {ts : List Char} → Box.LaidRest (boxAll sp scope i vs) ts →
    Sets ((piecesAll sp scope i vs).flatMap (.separator :: ·)) ts
  | scope, i, [], ts, h => by
    rw [boxAll] at h
    cases h
    rw [piecesAll]
    exact .nil
  | scope, i, v :: vs, ts, h => by
    rw [boxAll] at h
    rw [piecesAll, List.flatMap_cons, List.cons_append]
    cases h with
    | cons hgap hb hbs =>
      exact .separator hgap ((sets_of_laid sp _ v hb).append (sets_of_laidRest sp _ (i + 1) vs hbs))

end

/-! ## Leaves -/

mutual

/-- The leaves of a value are those of its box. -/
theorem proper_of_pieces (sp : Spelling) : (ab : Abbreviations) → (v : Value) →
    (∀ text, .leaf text ∈ v.pieces sp ab → Box.Leads text) → (v.box sp ab).Proper
  | ab, list [], _ => by
    rw [box, boxAll, Box.proper_group, Box.ProperAll]
    trivial
  | ab, list (v :: vs), h => by
    rw [pieces, piecesAll, Box.intercalate_singleton_cons, List.cons_append, List.append_assoc] at h
    rw [box, boxAll, Box.proper_group, Box.properAll_cons]
    refine ⟨proper_of_pieces sp _ v fun text ht => ?_,
      properAll_of_pieces sp _ 1 vs fun text ht => ?_⟩
    · exact h text (.tail _ (List.mem_append_left _ ht))
    · exact h text (.tail _ (List.mem_append_right _ (List.mem_append_left _ ht)))
  | ab, atom a, h => by
    rw [box, Box.Proper]
    exact h _ (by simp [pieces])
  | ab, vector items, h => by
    rw [box, Box.Proper]
    exact h _ (by simp [pieces])
  | ab, term k t, h => by
    rw [box, Box.Proper]
    exact h _ (by simp [pieces])

/-- If all leaves begin as they should, so does every box of the items. -/
theorem properAll_of_pieces (sp : Spelling) : (scope : Nat → Abbreviations) → (i : Nat) →
    (vs : List Value) →
    (∀ text, .leaf text ∈ (piecesAll sp scope i vs).flatMap (.separator :: ·) →
      Box.Leads text) → Box.ProperAll (boxAll sp scope i vs)
  | scope, i, [], _ => by
    rw [boxAll, Box.ProperAll]
    trivial
  | scope, i, v :: vs, h => by
    rw [piecesAll, List.flatMap_cons] at h
    rw [boxAll, Box.properAll_cons]
    refine ⟨proper_of_pieces sp _ v fun text ht => ?_,
      properAll_of_pieces sp _ (i + 1) vs fun text ht => ?_⟩
    · exact h text (List.mem_append_left _ (.tail _ ht))
    · exact h text (List.mem_append_right _ ht)

end

/-- **Layout changes only the blanks between pieces.** The text of a value on one line and its text
over several lines are made of the same pieces, if no leaf could be taken for a gap or for the end
of a list; the latter ends with a newline. -/
theorem sets_format (layout : Layout) (sp : Spelling) (ab : Abbreviations) (v : Value)
    (hleaves : ∀ text, .leaf text ∈ v.pieces sp ab → Box.Leads text) :
    v.compact sp ab = (v.pieces sp ab).flatMap Piece.text ∧
      ∃ t, Sets (v.pieces sp ab) t ∧ v.format layout sp ab = t ++ ['\n'] := by
  obtain ⟨t, ht, hformat⟩ := laid_format layout sp ab v (proper_of_pieces sp ab v hleaves)
  exact ⟨(flatMap_pieces sp ab v).symm, t, sets_of_laid sp ab v ht, hformat⟩

/-- A list at the head of a list, and a symbol whose text has a blank. -/
theorem sets_format_nested :
    let v : Value := .list [.list [.symbol "a", .symbol "b c"], .symbol "d"]
    (∀ text, .leaf text ∈ v.pieces .scheme {} → Box.Leads text) ∧
      v.compact .scheme {} = (v.pieces .scheme {}).flatMap Piece.text ∧
      ∃ t, Sets (v.pieces .scheme {}) t ∧ v.format ⟨0, 6⟩ .scheme {} = t ++ ['\n'] := by
  intro v
  have hpieces : v.pieces .scheme {} = [.opener, .opener, .leaf ['a'], .separator,
      .leaf ['|', 'b', ' ', 'c', '|'], .closer, .separator, .leaf ['d'], .closer] := by
    decide +kernel
  have hleaves : ∀ text, .leaf text ∈ v.pieces .scheme {} → Box.Leads text := by
    intro text htext
    rw [hpieces] at htext
    simp only [List.mem_cons, reduceCtorEq, Piece.leaf.injEq, List.not_mem_nil, or_false,
      false_or] at htext
    rcases htext with rfl | rfl | rfl
    · exact ⟨'a', [], rfl, by decide, by decide⟩
    · exact ⟨'|', _, rfl, by decide, by decide⟩
    · exact ⟨'d', [], rfl, by decide, by decide⟩
  exact ⟨hleaves, sets_format ⟨0, 6⟩ .scheme {} v hleaves⟩

end Value

end SExpr
