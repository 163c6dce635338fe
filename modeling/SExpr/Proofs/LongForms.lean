import SExpr.Proofs.CommonLisp
import SExpr.Proofs.Sequence

/-!
# Marks and vectors in full

What a mark stands for can be written out as a list, and a vector can be written around a document.

* **`yields_item_quote`**, **`yields_item_function`**: what stands after a mark makes up a list.
* **`yields_item_list`**, **`yields_item_vector`**: so does a sequence of values between brackets,
  or a vector.
* **`document_shorthands`**: the short forms and the long ones are read alike.
-/

namespace SExpr.Dialect.CommonLisp

open ReadM Text

variable {options : Options} {room limit : Nat} {cs rest text : List Char} {v : Value}
  {vs : List Value}

/-! ## Marks and brackets -/

/-- A value is an item if no blank or comment comes before its token. -/
theorem yields_item_token {n : Nested Unit} {c : Char} (hc : c ∈ ['\'', '#'])
    (h : Yields (token options n) () (c :: cs) (.value v) () rest) :
    Yields ((commonLisp options).item n) () (c :: cs) (.value v) () rest := by
  have hfirst : isBlank c = false ∧ c ∉ [';'] := by
    simp only [List.mem_cons, List.not_mem_nil, or_false] at hc
    rcases hc with rfl | rfl <;> decide
  have htrivia : Yields ((commonLisp options).trivia n) () (c :: cs) () () (c :: cs) :=
    (plain options).stands (bare_cons hfirst.1 hfirst.2 cs) [] () rfl
  exact htrivia.bind (.here fun p => h.bind (.pure _ _ _))

/-- What is marked is one level deeper. -/
theorem yields_marked
    (h : Yields ((commonLisp options).value ((commonLisp options).nested room)) () cs v () rest)
    (head : String) (p : Pos) :
    Yields (marked ((commonLisp options).nested (room + 1)) head p) () cs (.list [.symbol head, v])
      () rest :=
  (h.within .mark).bind (.pure _ _ _)

/-- A quote mark stands for a list. -/
theorem yields_item_quote
    (h : Yields ((commonLisp options).value ((commonLisp options).nested room)) () cs v () rest) :
    Yields ((commonLisp options).item ((commonLisp options).nested (room + 1))) () ('\'' :: cs)
      (.value (.list [.symbol options.quote, v])) () rest := by
  refine yields_item_token (by decide) (.here fun p => ?_)
  apply (Yields.onCursor (Cursor.yields_peek _) ()).bind
  apply (Yields.onCursor (Cursor.yields_take? _) ()).bind
  exact (yields_marked h options.quote p).bind (.pure _ _ _)

/-- So does the mark of a function. -/
theorem yields_item_function
    (h : Yields ((commonLisp options).value ((commonLisp options).nested room)) () cs v () rest) :
    Yields ((commonLisp options).item ((commonLisp options).nested (room + 1))) ()
      ('#' :: '\'' :: cs) (.value (.list [.symbol options.function, v])) () rest := by
  refine yields_item_token (by decide) (yields_token_sharp fun p => ?_)
  apply (Yields.onCursor (Cursor.yields_take _ _ _) ()).bind
  exact yields_marked h options.function p

/-- A sequence of values up to a closing bracket makes up a list. -/
theorem yields_item_list
    (h : ∀ p, Yields ((commonLisp options).items ((commonLisp options).nested room) .round p) () cs
      vs () rest) :
    Yields ((commonLisp options).item ((commonLisp options).nested (room + 1))) () ('(' :: cs)
      (.value (.list vs)) () rest := by
  have htrivia := (brackets options).stands_opener ((commonLisp options).nested (room + 1)) cs [] ()
    rfl
  refine htrivia.bind (.here fun p => ?_)
  apply ((brackets options).opener _ () cs).bind
  exact ((h p).within (.list .round)).bind (.pure _ _ _)

/-- After a sharp sign it makes up a vector. -/
theorem yields_item_vector
    (h : ∀ p, Yields ((commonLisp options).items ((commonLisp options).nested room) .round p) () cs
      vs () rest) :
    Yields ((commonLisp options).item ((commonLisp options).nested (room + 1))) ()
      ('#' :: '(' :: cs) (.value (.vector vs)) () rest := by
  refine yields_item_token (by decide) (yields_token_sharp fun p => ?_)
  apply (Yields.onCursor (Cursor.yields_take _ _ _) ()).bind
  exact ((h p).within (.list .round)).bind (.pure _ _ _)

/-! ## Words -/

/-- A blank before a value is skipped. -/
theorem yields_value_blank
    (h : Yields ((commonLisp options).value ((commonLisp options).nested room)) () cs v () rest) :
    Yields ((commonLisp options).value ((commonLisp options).nested room)) () (' ' :: cs) v ()
      rest := by
  -- It is so in one session, and then it is so elsewhere.
  let s : Session Unit := .fresh (' ' :: cs) none () 0
  have hs := Session.fresh_at (commonLisp options).isAtomChar (' ' :: cs) none () 0
  obtain ⟨c, hskip, hc⟩ := Lexeme.skipBlanks_blank (by decide) hs
  have hround : Lexeme.skipCommentsRound [';'] () s.cursor = Lexeme.skipCommentsRound [';'] () c :=
    bind_congr_left hskip
  have hcomments : Lexeme.skipComments [';'] s.cursor = Lexeme.skipComments [';'] c :=
    loop_congr (τ := Cursor) (Lexeme.tracks_skipCommentsRound [';']) (fun _ _ _ _ h => h.2) hs hc
      hround
  have htrivia : (commonLisp options).trivia ((commonLisp options).nested room) s
      = (commonLisp options).trivia ((commonLisp options).nested room) { s with cursor := c } := by
    show onCursor (Lexeme.skipComments [';']) s
      = onCursor (Lexeme.skipComments [';']) { s with cursor := c }
    unfold onCursor
    rw [hcomments]
  have hvalue : (commonLisp options).value ((commonLisp options).nested room) s
      = (commonLisp options).value ((commonLisp options).nested room) { s with cursor := c } := by
    unfold value
    rw [item_bind]
    exact bind_congr_left htrivia
  obtain ⟨c', hc', hread⟩ := h { s with cursor := c } rfl hc.before
  exact ((commonLisp_repeats options).value ((commonLisp_repeats options).nested le_rfl)).yields_of_ok
    (s := s) hs.before (hvalue.trans hread) hc'

/-- A word before a sequence of values is one value more. -/
theorem yieldsAll_word {word : List Char} (hword : Symbol.Bare .commonLisp word)
    (h : YieldsAll (commonLisp options) ((commonLisp options).nested room) () cs (v :: vs) () rest) :
    YieldsAll (commonLisp options) ((commonLisp options).nested room) () (word ++ ' ' :: cs)
      (.symbol (String.ofList word) :: v :: vs) () rest := by
  cases h with
  | @cons _ m₁ _ _ mid _ _ _ h hlt hs =>
    have hdelimits : Delimits (' ' :: cs) := by
      intro c hc
      cases hc
      exact .inl (by decide)
    have hleaf : Reads (commonLisp options) (brackets options) room () (.leaf word)
        (.symbol (String.ofList word)) () := .leaf (readsLeaf_bare options hword room)
    have hfirst : Yields ((commonLisp options).item _) () ([] ++ (word ++ ' ' :: cs))
        (.value (.symbol (String.ofList word))) () (' ' :: cs) :=
      hleaf.yields_item (.leaf word) rfl hdelimits
    have hsecond := yields_item_of_value (yields_value_blank (h.bind (.pure _ _ _)))
    refine .cons hfirst ?_ (.cons hsecond ?_ hs)
    · have := List.length_pos_iff.mpr hword.ne_nil
      rw [List.length_append]
      omega
    · rw [List.length_cons]
      exact Nat.lt_succ_of_lt hlt

/-! ## Documents -/

/-- A value that comes before nothing but blanks and comments is a document. -/
theorem document_of_item
    (h : Yields ((commonLisp options).item ((commonLisp options).nested limit)) () text (.value v)
      () rest) (hlt : rest.length < text.length)
    (htrivia : Yields ((commonLisp options).trivia ((commonLisp options).nested limit)) () rest ()
      () []) : (commonLisp options).Document () limit text [v] :=
  (YieldsAll.cons h hlt (.nil () rest)).document (brackets options) htrivia

/-- The values of a text, where a newline and a closing bracket follow. -/
theorem yields_items_newline
    (h : YieldsAll (commonLisp options) ((commonLisp options).nested room) () (cs ++ ['\n', ')'])
      vs () (rest ++ ['\n', ')']))
    (htrivia : Yields ((commonLisp options).trivia ((commonLisp options).nested room)) () rest ()
      () []) (p : Pos) :
    Yields ((commonLisp options).items ((commonLisp options).nested room) .round p) ()
      (cs ++ ['\n', ')']) vs () [] := by
  refine h.items (brackets options) ?_ p
  exact (Known.commonLisp options).yields_trivia_newline (commonLisp_repeats options) htrivia
    ((brackets options).stands_closer _ [] [] () rfl)

/-- The list of a word and the value of a document. -/
theorem document_word {word : List Char} (hword : Symbol.Bare .commonLisp word)
    (h : (commonLisp options).Document () limit text [v]) :
    (commonLisp options).Document () (limit + 1) ('(' :: (word ++ ' ' :: (text ++ ['\n', ')'])))
      [.list [.symbol (String.ofList word), v]] := by
  obtain ⟨_, rest, hvs, htrivia⟩ := h.yieldsAll (.commonLisp options) (commonLisp_repeats options)
    le_rfl (.inr ⟨[')'], rfl⟩)
  have hlist := yieldsAll_word hword hvs
  have hassoc : word ++ ' ' :: (text ++ ['\n', ')']) = (word ++ ' ' :: text) ++ ['\n', ')'] := by
    rw [List.append_assoc, List.cons_append]
  rw [hassoc] at hlist ⊢
  exact document_of_item (yields_item_list (yields_items_newline hlist htrivia)) (by simp)
    ((brackets options).stands_ended _ [] () rfl)

/-- A document may be written as a vector. -/
theorem document_vector (h : (commonLisp options).Document () limit text vs) :
    (commonLisp options).Document () (limit + 1) ('#' :: '(' :: (text ++ ['\n', ')']))
      [.vector vs] := by
  obtain ⟨_, rest, hvs, htrivia⟩ := h.yieldsAll (.commonLisp options) (commonLisp_repeats options)
    le_rfl (.inr ⟨[')'], rfl⟩)
  exact document_of_item (yields_item_vector (yields_items_newline hvs htrivia)) (by simp)
    ((brackets options).stands_ended _ [] () rfl)

/-- A mark before the value of a document. -/
theorem document_mark (mark : List Char) {w : Value}
    (h : (commonLisp options).Document () limit text [v])
    (hmark : ∀ {cs rest},
      Yields ((commonLisp options).value ((commonLisp options).nested limit)) () cs v () rest →
      Yields ((commonLisp options).item ((commonLisp options).nested (limit + 1))) () (mark ++ cs)
        (.value w) () rest) :
    (commonLisp options).Document () (limit + 1) (mark ++ text) [w] := by
  obtain ⟨_, rest, hvs, htrivia⟩ := h.yieldsAll (.commonLisp options) (commonLisp_repeats options)
    le_rfl (.inl rfl)
  rw [List.append_nil, List.append_nil] at hvs
  cases hvs with
  | cons hitem hlt hs =>
    cases hs
    refine document_of_item (hmark (hitem.bind (.pure _ _ _))) ?_ htrivia
    rw [List.length_append]
    exact Nat.lt_add_left _ hlt

/-- **Marks stand for lists**, and vectors can be written around documents: the short form and the
long one have the same value, if the value or the document in them can be read with one level
less. -/
theorem document_shorthands (limit : Nat) (text : List Char) :
    (∀ v, (commonLisp {}).Document () limit text [v] →
      (commonLisp {}).Document () (limit + 1) ('\'' :: text) [.list [.symbol "quote", v]] ∧
      (commonLisp {}).Document () (limit + 1) ("(quote ".toList ++ text ++ "\n)".toList)
        [.list [.symbol "quote", v]] ∧
      (commonLisp {}).Document () (limit + 1) ("#'".toList ++ text)
        [.list [.symbol "function", v]] ∧
      (commonLisp {}).Document () (limit + 1) ("(function ".toList ++ text ++ "\n)".toList)
        [.list [.symbol "function", v]]) ∧
    ∀ vs, (commonLisp {}).Document () limit text vs →
      (commonLisp {}).Document () (limit + 1) ("#(".toList ++ text ++ "\n)".toList)
        [.vector vs] := by
  -- The words in the long forms can be read back, as they need no bars.
  have hquote : Symbol.Bare .commonLisp "quote".toList :=
    Symbol.needsBars_eq_false_iff.mp (by decide)
  have hfunction : Symbol.Bare .commonLisp "function".toList :=
    Symbol.needsBars_eq_false_iff.mp (by decide)
  refine ⟨fun v h => ⟨?_, ?_, ?_, ?_⟩, fun vs h => ?_⟩
  · exact document_mark ['\''] h yields_item_quote
  · have hlong := document_word hquote h
    rwa [List.append_assoc]
  · exact document_mark ['#', '\''] h yields_item_function
  · have hlong := document_word hfunction h
    rwa [List.append_assoc]
  · rw [List.append_assoc]
    exact document_vector h

/-- A mark within, and a comment that the newline ends. -/
theorem document_shorthands_comment :
    let v : Value := .list [.symbol "quote", .symbol "b"]
    (commonLisp {}).Document () 1 "'b ;c".toList [v] ∧
      (commonLisp {}).Document () 2 "''b ;c".toList [.list [.symbol "quote", v]] ∧
      (commonLisp {}).Document () 2 "(quote 'b ;c\n)".toList [.list [.symbol "quote", v]] ∧
      (commonLisp {}).Document () 2 "#''b ;c".toList [.list [.symbol "function", v]] ∧
      (commonLisp {}).Document () 2 "(function 'b ;c\n)".toList [.list [.symbol "function", v]] ∧
      (commonLisp {}).Document () 2 "#('b ;c\n)".toList [.vector [v]] := by
  intro v
  have hread : (commonLisp {}).Document () 1 "'b ;c".toList [v] := ⟨_, by cbv⟩
  have hmarks := (document_shorthands 1 "'b ;c".toList).1 v hread
  have hvector := (document_shorthands 1 "'b ;c".toList).2 [v] hread
  exact ⟨hread, hmarks.1, hmarks.2.1, hmarks.2.2.1, hmarks.2.2.2, hvector⟩

end SExpr.Dialect.CommonLisp
