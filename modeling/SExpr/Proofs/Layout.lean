import Mathlib
import SExpr.Layout

/-!
# What layout may change

A box can be laid out in many ways. `Laid b t` says that `t` is one of them: the leaves of `b` in
order, each as it is, between the brackets of its groups, where only the gaps between items differ.

* **`laid_compact`**: the text on one line is laid out so.
* **`joinLines_lines`**: so is the text that comes out of breaking lists into lines and joining
  short lines again, if no leaf could be taken for a gap or for the end of a list.
* **`laid_format`**: so is the text of a value, whatever the limits of the layout.
* **`format_eq_compact`**: where the text on one line is short enough, it is the text itself.
-/

namespace SExpr

open Text

/-- What may stand between two items: a blank, or a new line and its indentation. -/
def IsGap (gap : List Char) : Prop := gap = [' '] ∨ ∃ n, gap = '\n' :: List.replicate n ' '

/-- A gap is made of blanks. -/
theorem IsGap.all_isBlank {gap : List Char} (h : IsGap gap) : gap.all isBlank = true := by
  have hnewline : isBlank '\n' = true := by decide
  have hspace : isBlank ' ' = true := by decide
  obtain rfl | ⟨n, rfl⟩ := h
  · simp [hspace]
  · simp [hnewline, hspace]

/-- A gap is not empty. -/
theorem IsGap.exists_cons {gap : List Char} (h : IsGap gap) :
    ∃ c cs, gap = c :: cs ∧ isBlank c = true := by
  obtain rfl | ⟨n, rfl⟩ := h
  · exact ⟨' ', [], rfl, by decide⟩
  · exact ⟨'\n', _, rfl, by decide⟩

namespace Box

/-- What may stand before the first item of a group: nothing, or a new line if the item is itself a
group. -/
def IsLead (b : Box) (lead : List Char) : Prop :=
  lead = [] ∨ ∃ items n, b = group items ∧ lead = '\n' :: List.replicate n ' '

mutual

/-- The text lays out the box. -/
inductive Laid : Box → List Char → Prop where
  | leaf (text : List Char) : Laid (leaf text) text
  | empty : Laid (group []) ['(', ')']
  | group {b : Box} {bs : List Box} {lead t ts : List Char} (hlead : b.IsLead lead)
      (hb : Laid b t) (hbs : LaidRest bs ts) :
      Laid (group (b :: bs)) ('(' :: (lead ++ (t ++ (ts ++ [')']))))

/-- The text lays out boxes one after the other, with a gap before each. -/
inductive LaidRest : List Box → List Char → Prop where
  | nil : LaidRest [] []
  | cons {b : Box} {bs : List Box} {gap t ts : List Char} (hgap : IsGap gap) (hb : Laid b t)
      (hbs : LaidRest bs ts) : LaidRest (b :: bs) (gap ++ (t ++ ts))

end

/-! ## Texts on one line -/

/-- Pieces with a separator between them are the first piece and then each other one after a
separator. -/
theorem intercalate_singleton_cons {α : Type} (sep : α) (t : List α) (ts : List (List α)) :
    [sep].intercalate (t :: ts) = t ++ ts.flatMap (sep :: ·) := by
  induction ts generalizing t with
  | nil => simp [List.intercalate]
  | cons u us ih =>
    have h := ih u
    simp only [List.intercalate, List.intersperse_cons_cons, List.flatten_cons] at h ⊢
    rw [h, List.flatMap_cons]
    rfl

mutual

/-- A box on one line is laid out. -/
theorem laid_compact : (b : Box) → Laid b b.compact
  | leaf text => by
    rw [compact]
    exact .leaf text
  | group [] => by
    rw [compact, compactAll]
    exact .empty
  | group (b :: bs) => by
    have h := Laid.group (Or.inl rfl) (laid_compact b) (laidRest_compactAll bs)
    rw [compact, compactAll, intercalate_singleton_cons]
    simpa using h

/-- The items after the first one are laid out with blanks between them. -/
theorem laidRest_compactAll : (bs : List Box) →
    LaidRest bs ((compactAll bs).flatMap (' ' :: ·))
  | [] => by
    rw [compactAll]
    exact .nil
  | b :: bs => by
    have h := LaidRest.cons (Or.inl rfl) (laid_compact b) (laidRest_compactAll bs)
    rw [compactAll, List.flatMap_cons]
    simpa using h

end

mutual

/-- **The length of a box** is that of its text on one line. -/
theorem length_compact : (b : Box) → b.compact.length = b.length
  | leaf text => by rw [compact, length]
  | group [] => rfl
  | group (b :: bs) => by
    have hb := length_compact b
    have hbs := length_compactAll bs
    rw [compact, compactAll, intercalate_singleton_cons, length, lengths]
    simp only [List.length_cons, List.length_append, List.length_nil]
    omega

/-- The items after the first one take as much room as was counted for them. -/
theorem length_compactAll : (bs : List Box) →
    ((compactAll bs).flatMap (' ' :: ·)).length = lengths bs + bs.length
  | [] => rfl
  | b :: bs => by
    have hb := length_compact b
    have hbs := length_compactAll bs
    rw [compactAll, lengths, List.flatMap_cons]
    simp only [List.length_cons, List.length_append]
    omega

end

/-! ## Texts over several lines

A line is an indentation and a text; joining keeps the text and replaces the indentation by a gap,
if it can tell where the one ends and the other begins. -/

/-- The text begins neither with a blank nor with a closing bracket. -/
def Leads (text : List Char) : Prop :=
  ∃ c cs, text = c :: cs ∧ isBlank c = false ∧ c ≠ ')'

mutual

/-- No leaf could be taken for a gap or for the end of a list. -/
def Proper : Box → Prop
  | leaf text => Leads text
  | group items => ProperAll items

/-- All boxes are proper. -/
def ProperAll : List Box → Prop
  | [] => True
  | b :: bs => Proper b ∧ ProperAll bs

end

@[simp] theorem proper_group (items : List Box) : Proper (group items) = ProperAll items := by
  rw [Proper]

@[simp] theorem properAll_cons (b : Box) (bs : List Box) :
    ProperAll (b :: bs) = (Proper b ∧ ProperAll bs) := by
  rw [ProperAll]

/-- What is laid out is not empty, as its leaves are not. -/
theorem Laid.ne_nil {b : Box} {t : List Char} (h : b.Laid t) (hb : b.Proper) : t ≠ [] := by
  cases h with
  | leaf text =>
    obtain ⟨c, cs, rfl, -, -⟩ := hb
    simp
  | empty => simp
  | group => simp

/-- The blanks before an indented line can be taken away again. -/
theorem dropWhile_indented {c : Char} (hc : isBlank c = false) (n : Nat) (cs : List Char) :
    (indented n (c :: cs)).dropWhile isBlank = c :: cs := by
  unfold indented
  induction n with
  | zero => exact List.dropWhile_cons_of_neg (by simp [hc])
  | succ n ih =>
    rw [List.replicate_succ, List.cons_append, List.dropWhile_cons_of_pos (by decide), ih]

/-- A closing bracket joins the line before it. -/
theorem joinAfter_closer (limit width n : Nat) (rest : List (List Char)) :
    ∃ width', Layout.joinAfter limit width (indented n [')'] :: rest)
      = ')' :: Layout.joinAfter limit width' rest := by
  refine ⟨width + 1, ?_⟩
  have hdrop := dropWhile_indented (c := ')') (by decide) n []
  simp only [Layout.joinAfter, hdrop, List.head?_cons, if_true, List.length_singleton,
    List.singleton_append]

/-- A line that opens a list is never joined. -/
theorem joinAfter_opener (limit width n : Nat) (cs : List Char) (rest : List (List Char)) :
    ∃ width', Layout.joinAfter limit width (indented n ('(' :: cs) :: rest)
      = '\n' :: List.replicate n ' ' ++ (('(' :: cs) ++ Layout.joinAfter limit width' rest) := by
  refine ⟨(indented n ('(' :: cs)).length, ?_⟩
  have hdrop := dropWhile_indented (c := '(') (by decide) n cs
  have hclose : ¬ some '(' = some ')' := by decide
  simp only [Layout.joinAfter, hdrop, List.head?_cons, hclose, if_false, ne_eq, not_true,
    false_and]
  simp only [indented, List.cons_append, List.append_assoc]

/-- Any other line is joined after a blank, or begins a new line. -/
theorem joinAfter_leads (limit width n : Nat) {text : List Char} (h : Leads text)
    (rest : List (List Char)) :
    ∃ gap width', IsGap gap ∧ Layout.joinAfter limit width (indented n text :: rest)
      = gap ++ (text ++ Layout.joinAfter limit width' rest) := by
  obtain ⟨c, cs, rfl, hc, hclose⟩ := h
  have hdrop := dropWhile_indented hc n cs
  simp only [Layout.joinAfter, hdrop, List.head?_cons, Option.some.injEq, if_neg hclose]
  split
  · exact ⟨[' '], _, .inl rfl, rfl⟩
  · refine ⟨'\n' :: List.replicate n ' ', (indented n (c :: cs)).length, .inr ⟨n, rfl⟩, ?_⟩
    simp only [indented, List.cons_append, List.append_assoc]

/-- After a line with the text `first`, joining the lines `ls` completes the box and goes on with
what follows them. -/
def Completes (limit : Nat) (b : Box) (first : List Char) (ls : List (List Char)) : Prop :=
  ∀ width more, ∃ t width', Laid b (first ++ t)
    ∧ Layout.joinAfter limit width (ls ++ more) = t ++ Layout.joinAfter limit width' more

/-- What stands on one line is laid out and needs nothing more. -/
theorem completes_compact (limit : Nat) (b : Box) : Completes limit b b.compact [] := by
  intro width more
  refine ⟨[], width, ?_, rfl⟩
  rw [List.append_nil]
  exact laid_compact b

mutual

/-- **The lines of a box.** The first one begins with a bracket if the box is a group, and the
others complete it. -/
theorem lines_completes (limit : Nat) : (b : Box) → b.Proper → (n : Nat) →
    ∃ first ls, lines limit n b = indented n first :: ls ∧ Leads first
      ∧ (∀ items, b = group items → ∃ cs, first = '(' :: cs) ∧ Completes limit b first ls
  | leaf text, hb, n => ⟨text, [], rfl, hb, by simp, completes_compact limit (leaf text)⟩
  | group [], _, n => ⟨['(', ')'], [], rfl, ⟨'(', [')'], rfl, by decide, by decide⟩,
      fun _ _ => ⟨[')'], rfl⟩, completes_compact limit (group [])⟩
  | group (b :: bs), hb, n => by
    rw [proper_group, properAll_cons] at hb
    by_cases hlong : limit < length (group (b :: bs))
    · cases b with
      | leaf text =>
        refine ⟨'(' :: text, linesAll limit (n + 1) bs ++ [indented n [')']], ?_,
          ⟨'(', text, rfl, by decide, by decide⟩, fun _ _ => ⟨text, rfl⟩, fun width more => ?_⟩
        · rw [lines, if_pos hlong]
          rfl
        -- The first item stays with the bracket; the others follow on lines of their own.
        obtain ⟨ts, w₁, hts, h₁⟩ :=
          linesAll_completes limit bs hb.2 (n + 1) width ([indented n [')']] ++ more)
        obtain ⟨w₂, h₂⟩ := joinAfter_closer limit w₁ n more
        refine ⟨ts ++ [')'], w₂, Laid.group (.inl rfl) (.leaf text) hts, ?_⟩
        rw [List.append_assoc, h₁, List.singleton_append, h₂, List.append_assoc]
        rfl
      | group items =>
        refine ⟨['('], lines limit (n + 1) (group items) ++ linesAll limit (n + 1) bs
          ++ [indented n [')']], ?_, ⟨'(', [], rfl, by decide, by decide⟩, fun _ _ => ⟨[], rfl⟩,
          fun width more => ?_⟩
        · rw [lines, if_pos hlong]
          rfl
        obtain ⟨first, ls, hlines, -, hfirst, hls⟩ :=
          lines_completes limit (group items) hb.1 (n + 1)
        obtain ⟨cs, rfl⟩ := hfirst items rfl
        -- The inner group begins a line of its own; its other lines, those of its siblings and
        -- the closing bracket follow.
        obtain ⟨w₁, h₁⟩ := joinAfter_opener limit width (n + 1) cs
          (ls ++ (linesAll limit (n + 1) bs ++ ([indented n [')']] ++ more)))
        obtain ⟨t, w₂, ht, h₂⟩ :=
          hls w₁ (linesAll limit (n + 1) bs ++ ([indented n [')']] ++ more))
        obtain ⟨ts, w₃, hts, h₃⟩ :=
          linesAll_completes limit bs hb.2 (n + 1) w₂ ([indented n [')']] ++ more)
        obtain ⟨w₄, h₄⟩ := joinAfter_closer limit w₃ n more
        refine ⟨'\n' :: List.replicate (n + 1) ' ' ++ ((('(' :: cs) ++ t) ++ (ts ++ [')'])), w₄,
          Laid.group (.inr ⟨items, n + 1, rfl, rfl⟩) ht hts, ?_⟩
        rw [hlines, List.append_assoc, List.append_assoc, List.cons_append, h₁, h₂, h₃,
          List.singleton_append, h₄]
        simp
    · -- A group that is short enough is one line.
      refine ⟨compact (group (b :: bs)), [], ?_, ⟨'(', _, rfl, by decide, by decide⟩,
        fun _ _ => ⟨_, rfl⟩, completes_compact limit _⟩
      cases b <;> rw [lines, if_neg hlong]

/-- The items of a list complete each other in turn: each goes on where the one before has left off.
-/
theorem linesAll_completes (limit : Nat) : (bs : List Box) → ProperAll bs → (n width : Nat) →
    (more : List (List Char)) → ∃ ts width', LaidRest bs ts
      ∧ Layout.joinAfter limit width (linesAll limit n bs ++ more)
        = ts ++ Layout.joinAfter limit width' more
  | [], _, n, width, more => ⟨[], width, .nil, by rw [linesAll]; rfl⟩
  | b :: bs, hbs, n, width, more => by
    rw [properAll_cons] at hbs
    obtain ⟨first, ls, hlines, hleads, -, hls⟩ := lines_completes limit b hbs.1 n
    obtain ⟨gap, w₁, hgap, h₁⟩ :=
      joinAfter_leads limit width n hleads (ls ++ (linesAll limit n bs ++ more))
    obtain ⟨t, w₂, ht, h₂⟩ := hls w₁ (linesAll limit n bs ++ more)
    obtain ⟨ts, w₃, hts, h₃⟩ := linesAll_completes limit bs hbs.2 n w₂ more
    refine ⟨gap ++ ((first ++ t) ++ ts), w₃, .cons hgap ht hts, ?_⟩
    rw [linesAll, hlines, List.append_assoc, List.cons_append, h₁, h₂, h₃]
    simp

end

/-- **Breaking into lines and joining them again lays the box out.** -/
theorem joinLines_lines (limit : Nat) (b : Box) (hb : b.Proper) :
    ∃ t, Laid b t ∧ Layout.joinLines limit (lines limit 0 b) = t ++ ['\n'] := by
  obtain ⟨first, ls, hlines, ⟨c, cs, rfl, -, -⟩, -, hls⟩ := lines_completes limit b hb 0
  obtain ⟨t, w, ht, h⟩ := hls (indented 0 (c :: cs)).length []
  refine ⟨(c :: cs) ++ t, ht, ?_⟩
  rw [List.append_nil] at h
  rw [hlines, Layout.joinLines, if_neg (by simp [indented]), h, Layout.joinAfter]
  simp [indented]

end Box

namespace Value

mutual

/-- A value's box on one line is the value's text on one line. -/
theorem compact_box (sp : Spelling) : (ab : Abbreviations) → (v : Value) →
    (v.box sp ab).compact = v.compact sp ab
  | ab, list items => by
    rw [box, compact, Box.compact, compactAll_boxAll sp (ab.scope items) 0 items]
  | ab, atom a => by rw [box, Box.compact]
  | ab, vector items => by rw [box, Box.compact]
  | ab, term h t => by rw [box, Box.compact]

/-- The items of a list on one line are the boxes of the items. -/
theorem compactAll_boxAll (sp : Spelling) : (scope : Nat → Abbreviations) → (i : Nat) →
    (vs : List Value) → Box.compactAll (boxAll sp scope i vs) = compactAll sp scope i vs
  | scope, i, [] => by rw [boxAll, compactAll, Box.compactAll]
  | scope, i, v :: vs => by
    rw [boxAll, compactAll, Box.compactAll, compact_box sp (scope i) v,
      compactAll_boxAll sp scope (i + 1) vs]

end

/-- Without forms that shorten anything, each item is a box of its own. -/
theorem boxAll_const (sp : Spelling) (ab : Abbreviations) (i : Nat) (vs : List Value) :
    boxAll sp (fun _ => ab) i vs = vs.map (box sp ab) := by
  induction vs generalizing i with
  | nil => rw [boxAll, List.map_nil]
  | cons v vs ih => rw [boxAll, List.map_cons, ih]

/-- If the leaves of all items begin as they should, so does what stands in the list. -/
theorem properAll_boxAll {sp : Spelling} {scope : Nat → Abbreviations} {vs : List Value}
    (h : ∀ v ∈ vs, ∀ i, (v.box sp (scope i)).Proper) (i : Nat) :
    Box.ProperAll (boxAll sp scope i vs) := by
  induction vs generalizing i with
  | nil =>
    rw [boxAll, Box.ProperAll]
    trivial
  | cons v vs ih =>
    rw [boxAll, Box.properAll_cons]
    exact ⟨h v (by simp) i, ih (fun w hw => h w (by simp [hw])) (i + 1)⟩

/-- A vector on one line is a sharp sign and the group of its items on one line. -/
theorem compact_vector (sp : Spelling) (ab : Abbreviations) (items : List Value) :
    (vector items).compact sp ab
      = '#' :: (Box.group (boxAll sp (ab.scope items) 0 items)).compact := by
  rw [compact, Box.compact, compactAll_boxAll]
  rfl

/-- **The text of a value lays out its box**, and ends with a newline. -/
theorem laid_format (layout : Layout) (sp : Spelling) (ab : Abbreviations) (v : Value)
    (hv : (v.box sp ab).Proper) :
    ∃ t, (v.box sp ab).Laid t ∧ v.format layout sp ab = t ++ ['\n'] := by
  simp only [format]
  split
  · exact Box.joinLines_lines layout.lineLimit _ hv
  · exact ⟨_, Box.laid_compact _, rfl⟩

/-- **A value and its box** have the same text on one line, and the length of the box is that of
this text. So a layout that leaves texts of this length on one line gives the text itself. -/
theorem format_eq_compact (sp : Spelling) (ab : Abbreviations) (v : Value) :
    (v.box sp ab).compact = v.compact sp ab ∧
      (v.box sp ab).length = (v.compact sp ab).length ∧
      ∀ layout : Layout, (v.compact sp ab).length ≤ layout.compactLimit →
        v.format layout sp ab = v.compact sp ab ++ ['\n'] := by
  have hlength : (v.box sp ab).length = (v.compact sp ab).length := by
    rw [← compact_box, Box.length_compact]
  refine ⟨compact_box sp ab v, hlength, fun layout hshort => ?_⟩
  rw [← hlength] at hshort
  rw [format, if_neg (Nat.not_lt.mpr hshort), compact_box]

/-- Under a prefix the items of a vector are abbreviated, but not those of the form itself. -/
theorem format_eq_compact_prefix :
    let namespaces := list [list [symbol "ex:", term 0 (.iri { text := "http://a/" })]]
    let v := list [symbol "prefix", namespaces,
      vector [term 1 (.iri { text := "http://a/b" }), list [symbol "base",
        term 2 (.iri { text := "http://c/" }), term 3 (.iri { text := "http://c/d" })]]]
    (v.compact .sparql {}).length ≤ ({ compactLimit := 60 } : Layout).compactLimit ∧
      v.format { compactLimit := 60 } .sparql {} =
        "(prefix ((ex: <http://a/>)) #(ex:b (base <http://c/> <d>)))\n".toList := by
  intro namespaces v
  have hshort : (v.compact .sparql {}).length ≤ ({ compactLimit := 60 } : Layout).compactLimit := by
    decide +kernel
  have htext : v.compact .sparql {} =
      "(prefix ((ex: <http://a/>)) #(ex:b (base <http://c/> <d>)))".toList := by
    decide +kernel
  refine ⟨hshort, ?_⟩
  rw [(format_eq_compact .sparql {} v).2.2 _ hshort, htext]
  decide +kernel

end Value

end SExpr
