import SExpr.Dialect.CommonLisp
import SExpr.Proofs.Token

/-!
# Common Lisp data are read back

Everything that Common Lisp syntax can say is written so that it is read back as it is, whatever
the layout.

* **`readsLeaf_atom`**: the text of an atom is one token, for that atom.
* **`readsLeaf_vector`**: so is the text of a vector of data.
* **`parse_formatAll_data`**: a written document of data is read back.
-/

namespace SExpr.Dialect.CommonLisp

open ReadM Text

/-! ## Data -/

/-- Atoms that the syntax can say: all but floats, strings in single quotes, and false, which is
the same as nil. -/
def isDatum : Atom → Bool
  | .nil | .bool true | .char _ | .string _ .double | .symbol _ => true
  | .number n => n.isExact
  | _ => false

/-- Lists and vectors of such atoms, nested at most so deep. -/
inductive Data : Nat → Value → Prop where
  | atom {room : Nat} {a : Atom} (h : isDatum a = true) : Data room (.atom a)
  | list {room : Nat} {items : List Value} (h : ∀ v ∈ items, Data room v) :
      Data (room + 1) (.list items)
  | vector {room : Nat} {items : List Value} (h : ∀ v ∈ items, Data room v) :
      Data (room + 1) (.vector items)

/-! ## Tokens -/

/-- What Common Lisp has in common with the other dialects, up to the sharp sign, bars and quotes.
-/
theorem plain (options : Options) : (commonLisp options).Plain [';'] ['#', '|', '\''] where
  round := rfl
  stands hbare _ m hgap := .onCursor (Lexeme.yields_skipComments_gap hgap hbare) m
  token {_ m cs t m' rest} hown h := by
    refine .here fun p => (Yields.onCursor (Cursor.yields_peek cs) m).bind ?_
    split
    · next heq => exact absurd (hown _ heq) (by simp)
    · next heq => exact absurd (hown _ heq) (by simp)
    · next heq => exact absurd (hown _ heq) (by simp)
    · exact h

/-- The brackets of Common Lisp. -/
def brackets (options : Options) : (commonLisp options).Brackets :=
  (plain options).toBrackets (by decide) (by decide)

/-- The names of characters are read back as they are written. -/
theorem regular (options : Options) :
    Spelling.commonLisp.Regular (lexicon options).isAtomChar where
  literal := by
    show ∀ e ∈ Spelling.commonLisp.charNames,
      e.1.toList.all (isAtomChar [.round]) = true ∧ e.1.toList ≠ []
    decide
  named := by decide
  long := by decide

/-- What begins with a sharp sign or a bar is a token of the dialect's own. -/
theorem readsLeaf_own {options : Options} {c : Char} {cs : List Char} (hc : c ∈ ['#', '|'])
    {room : Nat} {v : Value}
    (htoken : ∀ rest, Delimits rest →
      Yields (token options ((commonLisp options).nested room)) () (c :: (cs ++ rest)) (.value v) ()
        rest) :
    (commonLisp options).ReadsLeaf room () (c :: cs) v () := by
  have hfirst : isBlank c = false ∧ c ≠ ')' ∧ c ∉ [';'] := by
    simp only [List.mem_cons, List.not_mem_nil, or_false] at hc
    rcases hc with rfl | rfl <;> decide
  refine ⟨⟨c, cs, rfl, hfirst.1, hfirst.2.1⟩, fun rest _ => ?_, htoken⟩
  exact (plain options).stands (bare_cons hfirst.1 hfirst.2.2 _)

/-- A sharp sign hands over to what comes after it. -/
theorem yields_token_sharp {options : Options} {nested : Nested Unit} {c : Char}
    {cs rest : List Char} {v : Value}
    (h : ∀ p, Yields (sharp options nested p) () (c :: cs) v () rest) :
    Yields (token options nested) () ('#' :: c :: cs) (.value v) () rest := by
  refine .here fun p => (Yields.onCursor (Cursor.yields_peek _) ()).bind ?_
  exact (Yields.onCursor (Cursor.yields_take? _) ()).bind ((h p).bind (.pure _ _ _))

/-- A symbol of any name is read back from between bars. -/
theorem readsLeaf_barred (options : Options) (name : List Char) (room : Nat) :
    (commonLisp options).ReadsLeaf room () ('|' :: (name.flatMap Symbol.escape ++ ['|']))
      (.symbol (String.ofList name)) () := by
  refine readsLeaf_own (by decide) fun rest _ => .here fun p => ?_
  rw [List.append_assoc, List.singleton_append]
  apply (Yields.onCursor (Cursor.yields_peek _) ()).bind
  apply (Yields.onCursor (Cursor.yields_take? _) ()).bind
  exact (Yields.onCursor (Lexeme.yields_barredSymbol p name rest) ()).bind (.pure _ _ _)

/-- A character is read back by its name or as it is. -/
theorem readsLeaf_char (options : Options) (c : Char) (room : Nat) :
    (commonLisp options).ReadsLeaf room () (Atom.written .commonLisp (.char c)) (.atom (.char c))
      () := by
  refine readsLeaf_own (by decide) fun rest hrest => yields_token_sharp fun p => ?_
  have hstop := Lexicon.isAtomChar_of_delimits (plain options).round_mem hrest
  have hchar : CursorM.Yields (lexicon options).character _ (.atom (.char c)) rest :=
    (Lexeme.yields_character (regular options) c hstop).bind (.pure _ _)
  exact (Yields.onCursor (Cursor.yields_take _ _ _) ()).bind (.onCursor hchar ())

/-! ## Atoms -/

/-- A literal that is no word is a number or a symbol. -/
theorem yields_atom {options : Options} {text : List Char} {a : Atom}
    (ht : sameIgnoringCase text ['t'] = false)
    (hnil : sameIgnoringCase text ['n', 'i', 'l'] = false)
    (h : Numeral.atom text = .ok a) (p : Pos) (rest : List Char) :
    Yields (atom options text p) () rest (.atom a) () rest := by
  rw [atom, ht, hnil]
  exact yields_plainAtom h p () rest

/-- A symbol that needs no bars is read back by its bare name. -/
theorem readsLeaf_bare (options : Options) {name : List Char}
    (h : Symbol.Bare .commonLisp name) (room : Nat) :
    (commonLisp options).ReadsLeaf room () name (.symbol (String.ofList name)) () := by
  cases name with
  | nil => exact absurd rfl h.ne_nil
  | cons c cs =>
    have hfirst := h.first c rfl
    have hspecial := h.special c List.mem_cons_self
    have hquote : Quote.ofChar? c = none := by
      simp only [List.mem_cons, not_or] at hfirst
      simp [Quote.ofChar?, hfirst]
    refine (plain options).readsLeaf_literal (h.all_isAtomChar _) hquote ?_ fun p rest => ?_
    · simp_all
    · -- Needing no bars, the name is neither of the two words.
      exact yields_atom (h.word "t" (by decide)) (h.word "nil" (by decide)) h.atom p rest

/-- **An atom is read back as it was written.** -/
theorem readsLeaf_atom {a : Atom} (ha : isDatum a = true) (room : Nat) :
    (commonLisp {}).ReadsLeaf room () (a.written .commonLisp) (.atom a) () := by
  have hd := plain {}
  cases a with
  | nil => exact hd.readsLeaf_literal (by decide) (by decide) (by decide) fun _ _ => .pure _ _ _
  | bool b =>
    cases b with
    | true => exact hd.readsLeaf_literal (by decide) (by decide) (by decide) fun _ _ => .pure _ _ _
    | false => exact absurd ha (by decide)
  | char c => exact readsLeaf_char {} c room
  | string text quote =>
    cases quote with
    | double =>
      have hquote : Quote.double.char ∉ [';'] ++ ['#', '|', '\''] := by decide
      have h := hd.readsLeaf_string hquote text.toList room ()
      rwa [String.ofList_toList] at h
    | single => exact absurd ha (by simp [isDatum])
  | symbol name =>
    rw [Atom.written, Symbol.written]
    split
    · have h := readsLeaf_barred {} name.toList room
      rwa [String.ofList_toList] at h
    · next hbars =>
      rw [Bool.not_eq_true, Symbol.needsBars_eq_false_iff] at hbars
      have h := readsLeaf_bare {} hbars room
      rwa [String.ofList_toList] at h
  | number n =>
    rw [Atom.written]
    refine hd.readsLeaf_number (List.all_iff_forall_prop.mp (by decide)) ha fun p rest => ?_
    cases hw : n.written with
    | nil => exact absurd hw (Numeral.written_ne_nil ha)
    | cons c cs =>
      -- A numeral begins with no letter.
      have hfirst : ∀ c ∈ Numeral.exactChars,
          c.toLower ≠ 't'.toLower ∧ c.toLower ≠ 'n'.toLower :=
        List.all_iff_forall_prop.mp (by decide)
      have hc := hfirst c (Numeral.mem_exactChars_of_mem_written ha (hw ▸ List.mem_cons_self))
      rw [← hw]
      refine yields_atom ?_ ?_ (Numeral.atom_written ha) p rest
      · rw [hw]
        exact sameIgnoringCase_cons_eq_false hc.1 cs _
      · rw [hw]
        exact sameIgnoringCase_cons_eq_false hc.2 cs _

/-! ## Lists and vectors -/

/-- The items of a list are read back if each item is. -/
theorem readsAll_boxAll {room : Nat} {items : List Value}
    (h : ∀ v ∈ items, ∀ ab, Reads (commonLisp {}) (brackets {}) room () (v.box .commonLisp ab) v ())
    (scope : Nat → Abbreviations) (i : Nat) :
    ReadsAll (commonLisp {}) (brackets {}) room () (Value.boxAll .commonLisp scope i items) items
      () := by
  induction items generalizing i with
  | nil =>
    rw [Value.boxAll]
    exact .nil
  | cons v items ih =>
    rw [Value.boxAll]
    exact .cons (h v (by simp) _) (ih (fun w hw => h w (by simp [hw])) _)

/-- **A vector is one token**, up to the bracket that closes it. -/
theorem readsLeaf_vector {room : Nat} {bs : List Box} {items : List Value}
    (h : ReadsAll (commonLisp {}) (brackets {}) room () bs items ()) :
    (commonLisp {}).ReadsLeaf (room + 1) () ('#' :: (Box.group bs).compact) (.vector items) () := by
  refine readsLeaf_own (by decide) fun rest _ => ?_
  -- A vector is never broken into lines, and its text is that of a list after the sharp sign.
  obtain ⟨ts, hts, hitems⟩ := h.yields_group (Box.laid_compact _)
  rw [hts]
  refine yields_token_sharp fun p => ?_
  apply (Yields.onCursor (Cursor.yields_take _ _ _) ()).bind
  exact ((hitems p rest).within _).bind (.pure _ _ _)

/-- The boxes of data are read back, whatever is abbreviated: nothing is in this dialect. -/
theorem reads_box {room : Nat} {v : Value} (h : Data room v) (ab : Abbreviations) :
    Reads (commonLisp {}) (brackets {}) room () (v.box .commonLisp ab) v () := by
  induction h generalizing ab with
  | atom ha =>
    rw [Value.box, Value.compact]
    exact .leaf (readsLeaf_atom ha _)
  | list _ ih =>
    rw [Value.box]
    exact .group (readsAll_boxAll ih _ 0)
  | vector _ ih =>
    rw [Value.box, Value.compact_vector]
    exact .leaf (readsLeaf_vector (readsAll_boxAll ih _ 0))

/-- **Common Lisp data are read back** from their text, whatever its layout. -/
theorem parse_formatAll_data (layout : Layout) (vs : List Value) (h : ∀ v ∈ vs, Data 500 v) :
    parse (commonLisp {}) () (String.ofList (Value.formatAll layout .commonLisp {} vs))
      = .ok vs := by
  have hreads := readsAll_boxAll (fun v hv => reads_box (h v hv)) (fun _ => {}) 0
  rw [Value.boxAll_const] at hreads
  exact parse_formatAll hreads

theorem parse_formatAll_data_nested :
    Data 500 (.list [.symbol "a |b", .vector [.atom (.char ' '), .symbol "NIL"], .nil]) ∧
      parse (commonLisp {}) () (String.ofList (Value.formatAll { compactLimit := 0, lineLimit := 8 }
        .commonLisp {} [.list [.symbol "a |b", .vector [.atom (.char ' '), .symbol "NIL"], .nil]]))
        = .ok [.list [.symbol "a |b", .vector [.atom (.char ' '), .symbol "NIL"], .nil]] := by
  have hdata :
      Data 500 (.list [.symbol "a |b", .vector [.atom (.char ' '), .symbol "NIL"], .nil]) := by
    refine .list fun v hv => ?_
    simp only [List.mem_cons, List.not_mem_nil, or_false] at hv
    rcases hv with rfl | rfl | rfl
    · exact .atom rfl
    · refine .vector fun v hv => ?_
      simp only [List.mem_cons, List.not_mem_nil, or_false] at hv
      rcases hv with rfl | rfl <;> exact .atom rfl
    · exact .atom rfl
  exact ⟨hdata, parse_formatAll_data _ _ (by simpa using hdata)⟩

end SExpr.Dialect.CommonLisp
