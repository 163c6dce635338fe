import SExpr.Proofs.Layout

/-!
# How lines are joined

Short lines are joined to rows. A row begins with a line as it is, and the lines joined to it lose
the blanks they begin with. The width that is counted on the way is the length of the row, so the
limit is kept, and nothing else is a reason to begin a new row but a line that opens a list.

* **`Row`**: a row and its text.
* **`Row.Joins`**: when a line is to be joined to a row.
* **`joinAfter_rows`**: what is joined to a row that has been begun, and the rows after it.
* **`joinLines_greedy`**: all lines make up rows, and a line is joined exactly if it is to be.
-/

namespace SExpr.Layout

open Text

/-- A line without the blanks that it begins with. -/
def trimmed (line : List Char) : List Char := line.dropWhile isBlank

def Opens (line : List Char) : Prop := (trimmed line).head? = some '('

def Closes (line : List Char) : Prop := (trimmed line).head? = some ')'

instance : DecidablePred Opens := fun _ => inferInstanceAs (Decidable (_ = _))

instance : DecidablePred Closes := fun _ => inferInstanceAs (Decidable (_ = _))

/-- What a line adds to the row that it is joined to. -/
def joint (line : List Char) : List Char :=
  if Closes line then trimmed line else ' ' :: trimmed line

/-- Lines that make up one line of the text: the one that begins it, and those joined to it. -/
structure Row where
  first : List Char
  joined : List (List Char) := []

namespace Row

def lines (r : Row) : List (List Char) := r.first :: r.joined

def text (r : Row) : List Char := r.first ++ r.joined.flatMap joint

/-- The row with one more line joined to it. -/
def add (r : Row) (line : List Char) : Row := { r with joined := r.joined ++ [line] }

@[simp] theorem lines_add (r : Row) (line : List Char) : (r.add line).lines = r.lines ++ [line] :=
  rfl

@[simp] theorem text_add (r : Row) (line : List Char) :
    (r.add line).text = r.text ++ joint line := by
  simp [text, add]

/-- The line is to be joined to the row: it closes a list, or else it opens none and leaves the row
shorter than the limit. -/
def Joins (limit : Nat) (r : Row) (line : List Char) : Prop :=
  Closes line ∨ ¬Opens line ∧ (r.add line).text.length < limit

instance (limit : Nat) (r : Row) : DecidablePred (r.Joins limit) :=
  fun _ => inferInstanceAs (Decidable (_ ∨ _))

/-- Each line of the row was to be joined to what there was of the row. -/
def Fits (limit : Nat) (r : Row) : Prop :=
  ∀ front line, front ++ [line] <+: r.joined → Joins limit { r with joined := front } line

theorem fits_single (limit : Nat) (line : List Char) : Fits limit { first := line } := by
  intro front line' h
  simp at h

/-- A row that is complete up to a line, and to which that line is to be joined, is complete with
it. -/
theorem Fits.add {limit : Nat} {r : Row} {line : List Char} (hr : r.Fits limit)
    (hline : r.Joins limit line) : (r.add line).Fits limit := by
  intro front line' h
  rcases List.prefix_concat_iff.mp h with heq | h
  · obtain ⟨rfl, rfl⟩ := List.append_singleton_inj.mp heq
    exact hline
  · exact hr front line' h

/-- Joining brings in no characters but blanks. -/
theorem mem_text {r : Row} {c : Char} (hc : c ∈ r.text) :
    c = ' ' ∨ ∃ line ∈ r.lines, c ∈ line := by
  rw [text, List.mem_append, List.mem_flatMap] at hc
  rcases hc with hc | ⟨line, hline, hc⟩
  · exact .inr ⟨r.first, List.mem_cons_self, hc⟩
  · have hmem : c = ' ' ∨ c ∈ trimmed line := by
      unfold joint at hc
      split at hc
      · exact .inr hc
      · exact List.mem_cons.mp hc
    refine hmem.imp_right fun hc => ⟨line, List.mem_cons_of_mem _ hline, ?_⟩
    exact (List.dropWhile_sublist _).mem hc

end Row

/-- The rows are as long as they can be: a line is joined to its row exactly if it is to be. -/
structure Greedy (limit : Nat) (rows : List Row) : Prop where
  fits : ∀ r ∈ rows, r.Fits limit
  breaks : rows.IsChain fun r next => ¬r.Joins limit next.first

theorem Greedy.single {limit : Nat} {r : Row} (hr : r.Fits limit) : Greedy limit [r] :=
  ⟨by simpa using hr, .singleton r⟩

/-- A row before others is complete if the first line of the next row is not to be joined to it. -/
theorem Greedy.cons {limit : Nat} {r next : Row} {rows : List Row} (hr : r.Fits limit)
    (hbreak : ¬r.Joins limit next.first) (h : Greedy limit (next :: rows)) :
    Greedy limit (r :: next :: rows) :=
  ⟨List.forall_mem_cons.mpr ⟨hr, h.fits⟩, .cons_cons hbreak h.breaks⟩

/-! ## One line

The width is the length of the row that has been begun, whichever way the line goes. -/

/-- The next line is joined to the row that has been begun, or begins another one. -/
theorem joinAfter_cons (limit : Nat) (r : Row) (line : List Char) (lines : List (List Char)) :
    joinAfter limit r.text.length (line :: lines) =
      if r.Joins limit line then joint line ++ joinAfter limit (r.add line).text.length lines
      else '\n' :: line ++ joinAfter limit line.length lines := by
  have hstep : joinAfter limit r.text.length (line :: lines) =
      if Closes line then
        trimmed line ++ joinAfter limit (r.text.length + (trimmed line).length) lines
      else if ¬Opens line ∧ r.text.length + (trimmed line).length + 1 < limit then
        ' ' :: trimmed line ++ joinAfter limit (r.text.length + (trimmed line).length + 1) lines
      else '\n' :: line ++ joinAfter limit line.length lines := by
    rw [joinAfter]
    rfl
  rw [hstep, Row.text_add, List.length_append]
  by_cases hclose : Closes line
  · have hjoint : joint line = trimmed line := if_pos hclose
    have hjoins : r.Joins limit line := .inl hclose
    rw [if_pos hclose, if_pos hjoins, hjoint]
  · have hjoint : joint line = ' ' :: trimmed line := if_neg hclose
    have hjoins : r.Joins limit line ↔
        ¬Opens line ∧ r.text.length + (trimmed line).length + 1 < limit := by
      rw [Row.Joins, Row.text_add, List.length_append, hjoint, List.length_cons]
      exact or_iff_right hclose
    rw [if_neg hclose, hjoint, List.length_cons, ← Nat.add_assoc]
    by_cases hline : r.Joins limit line
    · rw [if_pos (hjoins.mp hline), if_pos hline]
    · rw [if_neg (mt hjoins.mpr hline), if_neg hline]

/-! ## All lines -/

/-- **Joining after a row.** The row goes on as long as lines are to be joined to it, and the lines
after that make up rows in the same way. -/
theorem joinAfter_rows (limit : Nat) (lines : List (List Char)) (r : Row) (hr : r.Fits limit) :
    ∃ row rows, row.lines ++ rows.flatMap Row.lines = r.lines ++ lines ∧
      r.text ++ joinAfter limit r.text.length lines =
        row.text ++ rows.flatMap (fun next => '\n' :: next.text) ++ ['\n'] ∧
      Greedy limit (row :: rows) := by
  induction lines generalizing r with
  | nil =>
    refine ⟨r, [], by simp, ?_, .single hr⟩
    rw [joinAfter, List.flatMap_nil, List.append_nil]
  | cons line lines ih =>
    by_cases hline : r.Joins limit line
    · obtain ⟨row, rows, hlines, htext, hgreedy⟩ := ih (r.add line) (hr.add hline)
      refine ⟨row, rows, by simpa using hlines, ?_, hgreedy⟩
      rw [joinAfter_cons, if_pos hline, ← htext, Row.text_add, List.append_assoc]
    · -- The row is complete, and the line begins the next one.
      obtain ⟨next, rows, hlines, htext, hgreedy⟩ := ih { first := line } (Row.fits_single _ _)
      have hfirst : next.first = line := by
        simp only [Row.lines, List.cons_append, List.cons.injEq] at hlines
        exact hlines.1
      refine ⟨r, next :: rows, ?_, ?_, hgreedy.cons hr (hfirst ▸ hline)⟩
      · rw [List.flatMap_cons, hlines]
        rfl
      · have hsingle : Row.text { first := line } = line := by simp [Row.text]
        rw [hsingle] at htext
        rw [joinAfter_cons, if_neg hline, List.cons_append, htext]
        simp

/-- **Joining is greedy.** The lines make up rows, which are the lines of the text, in order. A line
that closes a list never begins a row but the first; a line that is joined after a blank leaves its
row shorter than the limit; and a line that neither opens nor closes a list begins another row only
if it would have made the row before it as long as the limit or longer. -/
theorem joinLines_greedy (limit : Nat) (lines : List (List Char)) (hne : [] ∉ lines)
    (hline : ∀ line ∈ lines, '\n' ∉ line) :
    ∃ rows : List Row, rows.flatMap Row.lines = lines ∧
      joinLines limit lines = ['\n'].intercalate (rows.map Row.text) ++ ['\n'] ∧
      (∀ r ∈ rows, '\n' ∉ r.text) ∧ Greedy limit rows := by
  cases lines with
  | nil => exact ⟨[], rfl, rfl, by simp, by simp, .nil⟩
  | cons line lines =>
    -- The first line begins a row by itself, and the others are joined after it.
    obtain ⟨row, rows, hlines, htext, hgreedy⟩ :=
      joinAfter_rows limit lines { first := line } (Row.fits_single _ _)
    have hsingle : Row.text { first := line } = line := by simp [Row.text]
    rw [hsingle] at htext
    have hlines : (row :: rows).flatMap Row.lines = line :: lines := by
      rw [List.flatMap_cons, hlines]
      rfl
    refine ⟨row :: rows, hlines, ?_, fun r hr hmem => ?_, hgreedy⟩
    · have hempty : line.isEmpty = false := by
        rw [List.isEmpty_eq_false_iff]
        rintro rfl
        exact hne List.mem_cons_self
      rw [joinLines, hempty, if_neg Bool.false_ne_true, htext, List.map_cons,
        Box.intercalate_singleton_cons, List.flatMap_map]
    · rcases Row.mem_text hmem with hblank | ⟨line', hline', hmem⟩
      · exact absurd hblank (by decide)
      · exact hline line' (hlines ▸ List.mem_flatMap.mpr ⟨r, hr, hline'⟩) hmem

/-- A list within a list begins a row, and so does a word that would make its row as long as the
limit. -/
theorem joinLines_greedy_nested :
    let lines := ["(ab", " cd", " (e", "  f", "  )", " gh", " )"].map String.toList
    [] ∉ lines ∧ (∀ line ∈ lines, '\n' ∉ line) ∧
      ∃ rows : List Row, rows.flatMap Row.lines = lines ∧
        joinLines 9 lines = ['\n'].intercalate (rows.map Row.text) ++ ['\n'] ∧
        (∀ r ∈ rows, '\n' ∉ r.text) ∧ Greedy 9 rows ∧
        joinLines 9 lines = "(ab cd\n (e f)\n gh)\n".toList := by
  intro lines
  have hne : [] ∉ lines := by decide
  have hline : ∀ line ∈ lines, '\n' ∉ line := by decide
  obtain ⟨rows, hlines, htext, hrows, hgreedy⟩ := joinLines_greedy 9 lines hne hline
  exact ⟨hne, hline, rows, hlines, htext, hrows, hgreedy, by decide +kernel⟩

end SExpr.Layout
