import SExpr.Dialect.Plain
import SExpr.Dialect.Scheme
import SExpr.Proofs.Output

/-!
# Dialects without bars

The basic and the extended dialect and Scheme write a symbol between bars if its bare name would be
read as something else, but they have no syntax for bars. What they have read they read back, up to
such symbols: each is read back as the symbol whose name is the text with the bars.

* **`Barless`**: what the three dialects have in common.
* **`Barless.readsLeaf_atom`**: what an atom is read back as.
* **`parse_formatAll_iff`**: a document is read back if and only if no symbol in it needs bars.
-/

namespace SExpr

open Text

/-! ## Symbols between bars -/

namespace Symbol

/-- A name does not get shorter between bars. -/
theorem length_le_flatMap_escape (cs : List Char) : cs.length ≤ (cs.flatMap escape).length := by
  induction cs with
  | nil => exact Nat.le_refl _
  | cons c cs ih =>
    have hpos : 0 < (escape c).length := by
      unfold escape
      split <;> simp
    rw [List.flatMap_cons, List.length_append, List.length_cons]
    omega

/-- Between bars there is nothing but the characters of the name and backslashes. -/
theorem mem_flatMap_escape {cs : List Char} {c : Char} (h : c ∈ cs.flatMap escape) :
    c ∈ cs ∨ c = '\\' := by
  obtain ⟨e, he, hc⟩ := List.mem_flatMap.mp h
  unfold escape at hc
  split at hc
  · rw [List.mem_cons, List.mem_singleton] at hc
    rcases hc with rfl | rfl
    · exact .inr rfl
    · exact .inl he
  · rw [List.mem_singleton] at hc
    exact .inl (hc ▸ he)

/-- A barred name is another name. -/
theorem ofList_barred_ne (name : String) :
    String.ofList ('|' :: (name.toList.flatMap escape ++ ['|'])) ≠ name := by
  intro h
  have hlength := congrArg (List.length ∘ String.toList) h
  simp only [Function.comp_apply, String.toList_ofList, List.length_cons,
    List.length_append] at hlength
  have := length_le_flatMap_escape name.toList
  omega

end Symbol

namespace Dialect

open ReadM

/-! ## What the dialects have in common -/

/-- What a token stands for: a string, a number or a symbol, and with sharp syntax also one of the
other atoms. -/
def IsLeaf (brackets : List Bracket) (sharp : Bool) : Value → Prop
  | .atom (.symbol name) => name.toList.all (isAtomChar brackets) = true
  | .atom (.string _ _) | .atom (.number _) => True
  | .atom _ => sharp = true
  | _ => False

/-- Literals are numbers and symbols, comments begin with a semicolon or a sharp sign, and so do the
tokens that not all dialects have. -/
structure Barless (d : Dialect Unit) (starts own : List Char) (sharp : Bool) : Prop where
  plain : d.Plain starts own
  first : ∀ c ∈ starts ++ own, c = ';' ∨ c = '#'
  atom : d.atom = plainAtom
  returns : d.Returns [] (fun _ => True) (IsLeaf d.brackets sharp)
  sharp : sharp = true → ∀ room a, (a = .nil ∨ (∃ b, a = .bool b) ∨ ∃ c, a = .char c) →
    d.ReadsLeaf room () (a.written d.spelling) (.atom a) ()

namespace Barless

variable {d : Dialect Unit} {starts own : List Char} {sharp : Bool}

/-- The brackets of such a dialect. -/
def toBrackets (h : d.Barless starts own sharp) : d.Brackets :=
  h.plain.toBrackets (fun hmem => absurd (h.first _ hmem) (by decide))
    (fun hmem => absurd (h.first _ hmem) (by decide))

/-- A literal that stands for an atom is read back as it. -/
theorem readsLeaf_literal (h : d.Barless starts own sharp) {c : Char} {cs : List Char} {a : Atom}
    (htext : (c :: cs).all d.isAtomChar = true) (hc : c ∉ ['"', '\'', ';', '#'])
    (hatom : Numeral.atom (c :: cs) = .ok a) (room : Nat) :
    d.ReadsLeaf room () (c :: cs) (.atom a) () := by
  simp only [List.mem_cons, List.not_mem_nil, or_false, not_or] at hc
  refine h.plain.readsLeaf_literal htext ?_ ?_ fun p rest => ?_
  · rw [Quote.ofChar?, if_neg hc.1, if_neg hc.2.1]
  · exact fun hmem => (h.first c hmem).elim hc.2.2.1 hc.2.2.2
  · rw [h.atom]
    exact yields_plainAtom hatom p () rest

/-- A bare symbol is read back; one between bars is read as the symbol of the whole text. -/
theorem readsLeaf_symbol (h : d.Barless starts own sharp) {name : String}
    (hname : name.toList.all d.isAtomChar = true) (room : Nat) :
    d.ReadsLeaf room () (Symbol.written d.spelling name.toList)
      (.symbol (String.ofList (Symbol.written d.spelling name.toList))) () := by
  unfold Symbol.written
  split
  · -- The bars and backslashes are characters of literals like any other.
    refine h.readsLeaf_literal ?_ (by decide) (Numeral.atom_cons (by decide) (by decide) _) room
    have hbar : d.isAtomChar '|' = true := isAtomChar_of_not_mem (by decide) (by decide)
    have hback : d.isAtomChar '\\' = true := isAtomChar_of_not_mem (by decide) (by decide)
    show ('|' :: (name.toList.flatMap Symbol.escape ++ ['|'])).all d.isAtomChar = true
    rw [List.all_eq_true] at hname ⊢
    intro c hc
    simp only [List.mem_cons, List.mem_append, List.not_mem_nil, or_false] at hc
    rcases hc with rfl | hc | rfl
    · exact hbar
    · rcases Symbol.mem_flatMap_escape hc with hc | rfl
      · exact hname c hc
      · exact hback
    · exact hbar
  · next hbars =>
    rw [Bool.not_eq_true, Symbol.needsBars_eq_false_iff] at hbars
    cases hcs : name.toList with
    | nil => exact absurd hcs hbars.ne_nil
    | cons c cs =>
      rw [hcs] at hbars hname
      have hfirst := hbars.first c rfl
      exact h.readsLeaf_literal hname (by simp_all) hbars.atom room

/-- **What an atom is read back as**: itself, unless it is a symbol that needs bars. -/
theorem readsLeaf_atom (h : d.Barless starts own sharp) {a : Atom}
    (ha : IsLeaf d.brackets sharp (.atom a)) (hexact : ∀ n, a = .number n → n.isExact = true)
    (room : Nat) :
    ∃ w, d.ReadsLeaf room () (a.written d.spelling) w () ∧
      (w = .atom a ↔
        ∀ name, a = .symbol name → Symbol.needsBars d.spelling name.toList = false) := by
  cases a with
  | nil => exact ⟨_, h.sharp ha room _ (.inl rfl), by simp⟩
  | bool b => exact ⟨_, h.sharp ha room _ (.inr (.inl ⟨b, rfl⟩)), by simp⟩
  | char c => exact ⟨_, h.sharp ha room _ (.inr (.inr ⟨c, rfl⟩)), by simp⟩
  | string text quote =>
    refine ⟨.atom (.string text quote), ?_, by simp⟩
    have hquote : quote.char ∉ starts ++ own := by
      intro hmem
      have := h.first _ hmem
      cases quote <;> exact absurd this (by decide)
    have := h.plain.readsLeaf_string hquote text.toList room ()
    rwa [String.ofList_toList] at this
  | number n =>
    refine ⟨.atom (.number n), ?_, by simp⟩
    have hfirst : ∀ c ∈ Numeral.exactChars, ¬(c = ';' ∨ c = '#') :=
      List.all_iff_forall_prop.mp (by decide)
    refine h.plain.readsLeaf_number (fun c hc hmem => hfirst c hc (h.first c hmem)) (hexact n rfl)
      fun p rest => ?_
    rw [h.atom]
    exact yields_plainAtom (Numeral.atom_written (hexact n rfl)) p () rest
  | symbol name =>
    refine ⟨_, h.readsLeaf_symbol ha room, ?_⟩
    simp only [Value.atom.injEq, Atom.symbol.injEq, forall_eq']
    unfold Symbol.written
    split
    · next hbars =>
      -- The text with bars is read as the name, and it is longer than the name.
      simp only [hbars, Bool.true_eq_false, iff_false]
      exact Symbol.ofList_barred_ne name
    · next hbars => simp [hbars]

/-- The value is read back as itself if and only if no symbol in it needs bars. -/
def Kept (sp : Spelling) (v w : Value) : Prop :=
  w = v ↔ ∀ name, .symbol name ∈ v.atoms → Symbol.needsBars sp name.toList = false

/-- The same for values one after the other. -/
def KeptAll (sp : Spelling) (vs ws : List Value) : Prop :=
  ws = vs ↔ ∀ name, .symbol name ∈ Value.atomsAll vs → Symbol.needsBars sp name.toList = false

/-- What is kept in the first value and in the others is kept in all. -/
theorem keptAll_cons {sp : Spelling} {v w : Value} {vs ws : List Value} (h : Kept sp v w)
    (hs : KeptAll sp vs ws) : KeptAll sp (v :: vs) (w :: ws) := by
  unfold Kept at h
  unfold KeptAll at hs ⊢
  rw [List.cons.injEq, h, hs, ← forall_and]
  simp only [Value.atomsAll, List.mem_append, or_imp]

/-- All leaves are read back, symbols that need bars as other symbols; the values differ as soon as
one leaf does. -/
theorem readsBack (h : d.Barless starts own sharp) :
    ReadsBack d h.toBrackets d.spelling
      (fun v => IsLeaf d.brackets sharp v ∧ ∀ a ∈ v.atoms, ∀ n, a = .number n → n.isExact = true)
      (fun _ => True) (fun _ => True) (Kept d.spelling) (KeptAll d.spelling) where
  opens _ := trivial
  closes _ := trivial
  scope _ _ _ := trivial
  leaf {room _ ab v} _ _ hv := by
    cases v with
    | atom a =>
      obtain ⟨w, hw, hkept⟩ := h.readsLeaf_atom hv.1 (hv.2 a (by simp [Value.atoms])) room
      refine ⟨w, (), ?_, ?_, trivial⟩
      · rw [Value.box, Value.compact]
        exact .leaf hw
      · have hmem (name : String) : .symbol name ∈ (Value.atom a).atoms ↔ a = .symbol name := by
          rw [Value.atoms, List.mem_singleton, eq_comm]
        rw [Kept, hkept]
        simp only [hmem]
    | list items => exact hv.1.elim
    | vector items => exact hv.1.elim
    | term i t => exact hv.1.elim
  nil := by simp [KeptAll, Value.atomsAll]
  cons := keptAll_cons
  list hs := by
    unfold KeptAll at hs
    rw [Kept, Value.list.injEq, hs, Value.atoms]

/-- **What was read is read back exactly if it needs no bars.** -/
theorem parse_iff (h : d.Barless starts own sharp) (layout : Layout) {text : String}
    {vs : List Value} (hok : d.parse () text = .ok vs)
    (hexact : ∀ n, .number n ∈ Value.atomsAll vs → n.isExact = true) :
    d.parse () (String.ofList (Value.formatAll layout d.spelling {} vs)) = .ok vs ↔
      ∀ name, .symbol name ∈ Value.atomsAll vs →
        Symbol.needsBars d.spelling name.toList = false := by
  have hbuilt := h.returns.parse trivial hok
  -- What was read is built of leaves, and none of them is a float.
  have hleaves : ∀ v ∈ vs, v.Built (fun v => IsLeaf d.brackets sharp v ∧
      ∀ a ∈ v.atoms, ∀ n, a = .number n → n.isExact = true) 500 := by
    intro v hv
    refine (hbuilt v hv).and (fun _ => Value.forall_atoms_of_mem) ?_
    rintro a ha n rfl
    exact hexact n (Value.mem_atomsAll.mpr ⟨v, hv, ha⟩)
  obtain ⟨ws, hws, hkept⟩ := h.readsBack.parse layout {} hleaves trivial trivial
  rw [hws, Except.ok.injEq]
  exact hkept

end Barless

/-! ## The three dialects -/

/-- A word of the plain dialects is a number or the symbol of that name. -/
theorem ensures_plainAtom (text : List Char) (p : Pos) (s : Session Unit) :
    Ensures (plainAtom text p) s fun v s' =>
      s' = s ∧ ((∃ n, v = .atom (.number n)) ∨ v = .symbol (String.ofList text)) := by
  unfold plainAtom
  cases hatom : Numeral.atom text with
  | error cause => exact ensures_fail
  | ok a =>
    refine .pure ⟨rfl, ?_⟩
    unfold Numeral.atom at hatom
    split at hatom
    · next htext =>
      cases hatom
      exact .inr (htext ▸ rfl)
    · cases hnumber : Numeral.number? text with
      | error cause => simp [hnumber, Except.map] at hatom
      | ok n =>
        rw [hnumber] at hatom
        cases n <;> cases hatom
        · exact .inr rfl
        · exact .inl ⟨_, rfl⟩

/-- What basic tokens stand for, where literals are numbers and symbols. -/
theorem ensures_basicToken_plain {l : Lexicon Unit} (hatom : l.atom = plainAtom) (sharp : Bool)
    (s : Session Unit) (hbare : Lexeme.Bare [] s.cursor.unread) :
    Ensures l.basicToken s fun t s' => s.Keeps (fun _ => True) s' ∧
      ∀ v, t = .value v → IsLeaf l.brackets sharp v := by
  refine Lexicon.ensures_basicToken (fun c t ht => ?_) (fun c d text quote _ _ => ?_)
    fun c text p _ hhead htext _ => ?_
  · exact ⟨⟨rfl, rfl, trivial⟩, fun v hv => absurd hv (ht v)⟩
  · refine ⟨⟨rfl, rfl, trivial⟩, ?_⟩
    rintro v ⟨⟩
    trivial
  · rw [hatom]
    refine (ensures_plainAtom text p _).mono ?_
    rintro v s' ⟨rfl, hv⟩
    refine ⟨⟨rfl, rfl, trivial⟩, ?_⟩
    rintro w ⟨⟩
    rcases hv with ⟨n, rfl⟩ | rfl
    · trivial
    · show (String.ofList text).toList.all (isAtomChar l.brackets) = true
      rw [String.toList_ofList]
      rcases htext with htext | ⟨d, rfl, hblank⟩
      · exact htext
      · rw [(hbare d (by rw [← hhead]; rfl)).1] at hblank
        cases hblank

/-- Blanks and comments are all that stands before a token. -/
theorem ensures_trivia_cursor {x : CursorM Unit} {s : Session Unit}
    (hx : Ensures x s.cursor fun _ c => Lexeme.Bare [] c.unread) :
    Ensures (onCursor x : ReadM Unit Unit) s fun _ s' =>
      s.Keeps (fun _ => True) s' ∧ Lexeme.Bare [] s'.cursor.unread := by
  refine (ensures_onCursor hx).mono fun _ s' h => ⟨?_, h.2⟩
  rw [h.1]
  exact ⟨rfl, rfl, trivial⟩

/-- The basic dialect has no bars and no comments, and a sharp sign is nothing special. -/
theorem barless_basic : basic.Barless [] [] false where
  plain :=
    { round := rfl
      stands := fun {_ cs} hbare gap m hgap => by
        have h := Lexeme.yields_skipBlanks (gap ++ cs)
        rw [Lexeme.dropWhile_gap hgap hbare] at h
        exact .onCursor h m
      token := fun _ h => h }
  first := by simp
  atom := rfl
  returns :=
    { trivia := fun _ s _ _ => ensures_trivia_cursor
        ((Lexeme.ensures_skipBlanks s.cursor).mono fun _ _ h c hc => ⟨h c hc, rfl⟩)
      token := fun _ s _ hbare => ensures_basicToken_plain rfl false s hbare }
  sharp h := by simp at h

/-- The extended dialect has no bars, and its only comments go to the end of the line. -/
theorem barless_extended : extended.Barless [';'] [] false where
  plain :=
    { round := rfl
      stands := fun hbare _ m hgap => .onCursor (Lexeme.yields_skipComments_gap hgap hbare) m
      token := fun _ h => h }
  first := by simp
  atom := rfl
  returns :=
    { trivia := fun _ s _ _ => ensures_trivia_cursor
        ((Lexeme.ensures_skipComments [';'] s.cursor).mono fun _ _ h c hc => ⟨(h c hc).1, rfl⟩)
      token := fun _ s _ hbare => ensures_basicToken_plain rfl false s hbare }
  sharp h := by simp at h

namespace Scheme

/-- A text before which there are blanks only stands at a token. -/
theorem stands_of_bare {nested : Nested Unit} {cs : List Char} (hbare : Lexeme.Bare [';', '#'] cs) :
    scheme.Stands nested cs := by
  intro gap m hgap
  have hcomment : Lexeme.Bare [';'] cs := by
    intro c hc
    have := hbare c hc
    simp_all
  refine .loop_done ((Yields.onCursor (Lexeme.yields_skipComments_gap hgap hcomment) m).bind ?_)
  apply (Yields.onCursor (Cursor.yields_peek cs) m).bind
  have hsharp : cs.head? ≠ some '#' := by
    intro hhead
    exact absurd (hbare _ hhead).2 (by decide)
  rw [if_neg hsharp]
  exact .pure _ _ _

/-- A sharp sign that begins no comment is put back. -/
theorem stands_sharp {nested : Nested Unit} {c : Char} (hc : c ≠ ';' ∧ c ≠ '!') (cs : List Char) :
    scheme.Stands nested ('#' :: c :: cs) := by
  intro gap m hgap
  have hbare : Lexeme.Bare [';'] ('#' :: c :: cs) := bare_cons (by decide) (by decide) _
  refine .loop_done ((Yields.onCursor (Lexeme.yields_skipComments_gap hgap hbare) m).bind ?_)
  apply (Yields.onCursor (Cursor.yields_peek _) m).bind
  rw [List.head?_cons, if_pos rfl]
  refine .here fun p => (Yields.onCursor (Cursor.yields_take? _) m).bind ?_
  apply (Yields.onCursor (Cursor.yields_peek _) m).bind
  simp only [List.tail_cons, List.head?_cons]
  split
  · next heq => exact absurd (Option.some.inj heq) hc.1
  · next heq => exact absurd (Option.some.inj heq) hc.2
  · exact (Yields.onCursor (Cursor.yields_pushBack ['#'] _) m).bind (.pure _ _ _)

/-- What Scheme has in common with the plain dialects, up to its sharp sign. -/
theorem plain : scheme.Plain [';', '#'] ['#'] where
  round := rfl
  stands := stands_of_bare
  token {_ m cs _ _ _} hown h := by
    apply (Yields.onCursor (Cursor.yields_peek cs) m).bind
    have hsharp : cs.head? ≠ some '#' := fun hhead => absurd (hown _ hhead) (by decide)
    rw [if_neg hsharp]
    exact h

theorem regular : Spelling.scheme.Regular schemeLexicon.isAtomChar where
  literal := by decide
  named := by decide
  long := by decide

/-- What a sharp sign begins is a token, unless it is a comment. -/
theorem readsLeaf_sharp {c : Char} (hc : c ≠ ';' ∧ c ≠ '!') {cs : List Char} {room : Nat}
    {v : Value}
    (h : ∀ p rest, Delimits rest → Yields (sharp p) () (c :: (cs ++ rest)) v () rest) :
    scheme.ReadsLeaf room () ('#' :: c :: cs) v () := by
  refine ⟨⟨'#', _, rfl, by decide, by decide⟩, fun rest _ => stands_sharp hc _,
    fun rest hrest => ?_⟩
  apply (Yields.onCursor (Cursor.yields_peek _) ()).bind
  rw [List.cons_append, List.head?_cons, if_pos rfl]
  refine .here fun p => (Yields.onCursor (Cursor.yields_take? _) ()).bind ?_
  exact (h p rest hrest).bind (.pure _ _ _)

/-- A word of one letter after a sharp sign is read back as what it stands for. -/
theorem readsLeaf_word {c : Char} {v : Value} (hc : c ≠ ';' ∧ c ≠ '!')
    (hatom : scheme.isAtomChar c = true) (hback : c ≠ '\\') (hradix : radix? c = none)
    (hletter : isLetter c = true) (hword : word? [c] = some v) (room : Nat) :
    scheme.ReadsLeaf room () ['#', c] v () := by
  refine readsLeaf_sharp hc fun p rest hrest => ?_
  apply (Yields.onCursor (Cursor.yields_peek _) ()).bind
  simp only [List.head?_cons, if_neg hback, hradix, hletter, if_true]
  have hstop := Lexicon.isAtomChar_of_delimits plain.round_mem hrest
  apply (Yields.onCursor (Lexeme.yields_literal_append [c] (by simpa using hatom) hstop) ()).bind
  rw [hword]
  exact .pure _ _ _

/-- A character is read back by its name, by its code or as it is. -/
theorem readsLeaf_char (c : Char) (room : Nat) :
    scheme.ReadsLeaf room () (Atom.written .scheme (.char c)) (.atom (.char c)) () := by
  refine readsLeaf_sharp (by decide) fun p rest hrest => ?_
  apply (Yields.onCursor (Cursor.yields_peek _) ()).bind
  apply (Yields.onCursor (Cursor.yields_take? _) ()).bind
  have hstop := Lexicon.isAtomChar_of_delimits plain.round_mem hrest
  have hchar : CursorM.Yields schemeLexicon.character _ (.atom (.char c)) rest :=
    (Lexeme.yields_character regular c hstop).bind (.pure _ _)
  exact .onCursor hchar ()

/-- What Scheme skips before a token leaves the session as it was, and it skips all there is: what
is left begins with no blank. -/
theorem ensures_trivia (nested : Nested Unit) (s : Session Unit)
    (hdatum : ∀ p s, Ensures (nested.datum p) s fun _ s' => s.Keeps (fun _ => True) s') :
    Ensures (trivia nested) s fun _ s' =>
      s.Keeps (fun _ => True) s' ∧ Lexeme.Bare [] s'.cursor.unread := by
  -- Whatever a round takes away, the room stays the same.
  refine Ensures.loop (fun _ s' => s.Keeps (fun _ => True) s') (fun _ _ _ => stuck_ne_ok)
    (fun _ s₁ hinv => ?_) ⟨rfl, rfl, trivial⟩
  -- A round skips blanks and line comments, and then looks whether a sharp sign comes next.
  refine (ensures_onCursor (Lexeme.ensures_skipComments _ _)).bind fun _ s₂ h₂ => ?_
  refine (ensures_onCursor (Cursor.ensures_peek _)).bind fun r s₃ h₃ => ?_
  obtain ⟨hs₃, rfl, hunread⟩ := h₃
  have hkeeps₃ : s.Keeps (fun _ => True) s₃ := by
    rw [hs₃, h₂.1]
    exact ⟨hinv.context, hinv.limit, trivial⟩
  split
  · refine ensures_here fun p => ?_
    refine (ensures_onCursor (Cursor.ensures_take? _)).bind fun _ s₄ h₄ => ?_
    refine (ensures_onCursor (Cursor.ensures_peek _)).bind fun r s₅ h₅ => ?_
    have hkeeps₅ : s.Keeps (fun _ => True) s₅ := by
      rw [h₅.1, h₄.1]
      exact ⟨hkeeps₃.context, hkeeps₃.limit, trivial⟩
    split
    · -- A commented datum is read and dropped.
      refine (ensures_onCursor (Cursor.ensures_take? _)).bind fun _ s₆ h₆ => ?_
      refine (hdatum p s₆).bind fun _ s₇ h₇ => .pure ⟨?_, ?_, trivial⟩
      · rw [h₇.context, h₆.1]
        exact hkeeps₅.context
      · rw [h₇.limit, h₆.1]
        exact hkeeps₅.limit
    · -- A directive: the rest of the line is skipped.
      refine Ensures.bind (ensures_onCursor (P := fun _ _ => True) fun _ _ _ => trivial) ?_
      refine fun _ s₆ h₆ => .pure ?_
      rw [h₆.1]
      exact ⟨hkeeps₅.context, hkeeps₅.limit, trivial⟩
    · -- A sharp sign that begins no comment stands before the next token again.
      have hput : Ensures (Cursor.pushBack ['#']) s₅.cursor fun _ c =>
          c.unread = '#' :: s₅.cursor.unread := by
        intro a c hok
        cases hok
        exact Cursor.unread_foldr_putBack ['#'] _
      refine (ensures_onCursor hput).bind fun _ s₆ h₆ => .pure ⟨?_, ?_⟩
      · rw [h₆.1]
        exact ⟨hkeeps₅.context, hkeeps₅.limit, trivial⟩
      · rw [h₆.2]
        exact bare_cons (by decide) (by simp) _
  · -- Without a sharp sign, what is left is bare.
    refine .pure ⟨hkeeps₃, ?_⟩
    rw [hunread]
    exact fun c hc => ⟨(h₂.2 c hc).1, rfl⟩

/-- What follows a sharp sign is an atom, but no symbol. -/
theorem ensures_sharp (p : Pos) (s : Session Unit) :
    Ensures (sharp p) s fun v s' =>
      s' = { s with cursor := s'.cursor } ∧ IsLeaf schemeLexicon.brackets true v := by
  refine (ensures_onCursor (Cursor.ensures_peek _)).bind fun r s₁ h₁ => ?_
  have hs₁ := h₁.1
  split
  · -- Nothing follows.
    exact ensures_here fun _ => ensures_fail
  · next c _ =>
    split
    · refine (ensures_onCursor (Cursor.ensures_take? _)).bind fun _ s₂ h₂ => ?_
      -- A backslash: a character follows.
      have hchar : Ensures schemeLexicon.character s₂.cursor fun v _ =>
          IsLeaf schemeLexicon.brackets true v :=
        Ensures.bind (P := fun _ _ => True) (fun _ _ _ => trivial) fun _ _ _ => .pure rfl
      refine (ensures_onCursor hchar).mono fun v s' h => ⟨?_, h.2⟩
      rw [h.1, h₂.1, hs₁]
    · split
      · next radix _ =>
        refine (ensures_onCursor (Cursor.ensures_take? _)).bind fun _ s₂ h₂ => ?_
        -- The letter of a radix: an integer follows.
        have hnumber : Ensures (schemeLexicon.radixInteger radix) s₂.cursor fun v _ =>
            IsLeaf schemeLexicon.brackets true v :=
          Ensures.bind (P := fun _ _ => True) (fun _ _ _ => trivial) fun _ _ _ => .pure trivial
        refine (ensures_onCursor hnumber).mono fun v s' h => ⟨?_, h.2⟩
        rw [h.1, h₂.1, hs₁]
      · split
        · -- Else it is a word, which has to be one of those that mean something.
          refine (ensures_onCursor (Lexeme.ensures_literal _ _)).bind fun text s₂ h₂ => ?_
          split
          · next v hword =>
            refine .pure ⟨by rw [h₂.1, hs₁], ?_⟩
            unfold word? at hword
            simp only at hword
            split at hword
            · cases hword
              rfl
            · split at hword
              · cases hword
                rfl
              · split at hword <;> cases hword
                rfl
          · exact ensures_fail
        · exact ensures_fail

/-- A token of Scheme leaves the session as it was but for the cursor, and is a leaf if it is a
value. -/
theorem ensures_token (s : Session Unit) (hbare : Lexeme.Bare [] s.cursor.unread) :
    Ensures token s fun t s' => s.Keeps (fun _ => True) s' ∧
      ∀ v, t = .value v → IsLeaf schemeLexicon.brackets true v := by
  refine (ensures_onCursor (Cursor.ensures_peek _)).bind fun r s₁ h₁ => ?_
  obtain ⟨hs₁, rfl, hunread⟩ := h₁
  split
  · refine ensures_here fun p => ?_
    refine (ensures_onCursor (Cursor.ensures_take? _)).bind fun _ s₂ h₂ => ?_
    refine (ensures_sharp p s₂).bind fun v s₃ h₃ => .pure ⟨?_, ?_⟩
    · rw [h₃.1, h₂.1, hs₁]
      exact ⟨rfl, rfl, trivial⟩
    · rintro w ⟨⟩
      exact h₃.2
  · refine (ensures_basicToken_plain rfl true s₁ (hunread ▸ hbare)).mono fun t s₂ h₂ => ⟨?_, h₂.2⟩
    rw [hs₁] at h₂
    exact ⟨h₂.1.context, h₂.1.limit, trivial⟩

end Scheme

/-- Scheme has no bars, and a sharp sign before what is no symbol. -/
theorem barless_scheme : scheme.Barless [';', '#'] ['#'] true where
  plain := Scheme.plain
  first := by simp
  atom := rfl
  returns :=
    { trivia := fun nested s _ hdatum =>
        Scheme.ensures_trivia nested s fun p s => hdatum p s trivial
      token := fun _ s _ => Scheme.ensures_token s }
  sharp _ room a ha := by
    rcases ha with rfl | ⟨b, rfl⟩ | ⟨c, rfl⟩
    · exact Scheme.readsLeaf_word (by decide) (by decide) (by decide) (by decide) (by decide) rfl
        room
    · cases b with
      | true =>
        exact Scheme.readsLeaf_word (by decide) (by decide) (by decide) (by decide) (by decide) rfl
          room
      | false =>
        exact Scheme.readsLeaf_word (by decide) (by decide) (by decide) (by decide) (by decide) rfl
          room
    · exact Scheme.readsLeaf_char c room

/-- **Exact round trip.** What one of the three dialects has read, it reads back from the written
text, whatever the layout, if and only if no symbol in it needs bars; floats are left out. -/
theorem parse_formatAll_iff (d : Dialect Unit) (hd : d = basic ∨ d = extended ∨ d = scheme)
    (layout : Layout) (text : String) (vs : List Value) (hok : d.parse () text = .ok vs)
    (hexact : ∀ n, .number n ∈ Value.atomsAll vs → n.isExact = true) :
    d.parse () (String.ofList (Value.formatAll layout d.spelling {} vs)) = .ok vs ↔
      ∀ name, .symbol name ∈ Value.atomsAll vs →
        Symbol.needsBars d.spelling name.toList = false := by
  rcases hd with rfl | rfl | rfl
  · exact barless_basic.parse_iff layout hok hexact
  · exact barless_extended.parse_iff layout hok hexact
  · exact barless_scheme.parse_iff layout hok hexact

set_option maxRecDepth 20000 in
theorem parse_formatAll_iff_scheme :
    scheme.parse () "(a #t)" = .ok [.list [.symbol "a", .bool true]] ∧
      (scheme.parse () (String.ofList
          (Value.formatAll {} scheme.spelling {} [.list [.symbol "a", .bool true]]))
        = .ok [.list [.symbol "a", .bool true]] ↔
      ∀ name, .symbol name ∈ Value.atomsAll [.list [.symbol "a", .bool true]] →
        Symbol.needsBars scheme.spelling name.toList = false) := by
  have hok : scheme.parse () "(a #t)" = .ok [.list [.symbol "a", .bool true]] := by cbv
  refine ⟨hok, parse_formatAll_iff scheme (.inr (.inr rfl)) {} "(a #t)" _ hok ?_⟩
  simp [Value.atomsAll, Value.atoms]

end Dialect

end SExpr
