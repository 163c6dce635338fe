import SExpr.Dialect.Structure
import SExpr.Proofs.Layout
import SExpr.Proofs.Parts
import SExpr.Proofs.Yields

/-!
# Reading back what was laid out

If a dialect reads the text of every leaf as a certain value, wherever a token may end, then it
reads every layout of a box as the list of those values. What the dialect remembers is passed on
from leaf to leaf.

* **`Dialect.ReadsLeaf`**: what the dialect reads from the text of one leaf.
* **`Dialect.Brackets`**: the round brackets are tokens of the dialect.
* **`Dialect.Reads`**: what it reads from a box, leaf by leaf.
* **`Dialect.ReadsBack`**: how the value that is read back from each leaf goes with the leaf.
* **`readAll_formatAll`**: a written document is read so, whatever its layout.
-/

namespace SExpr

namespace Dialect

open ReadM Text Box

variable {σ : Type}

/-! ## Leaves and brackets -/

/-- What may follow a token: the end, a blank or a closing bracket. -/
def Delimits (rest : List Char) : Prop := ∀ c ∈ rest.head?, isBlank c = true ∨ c = ')'

theorem delimits_closer (rest : List Char) : Delimits (')' :: rest) := by
  simp [Delimits]

theorem delimits_newline (rest : List Char) : Delimits ('\n' :: rest) := by
  intro c hc
  rw [List.head?_cons, Option.mem_some_iff] at hc
  exact .inl (hc ▸ by decide)

/-- Before `cs` only blanks are skipped. -/
def Stands (d : Dialect σ) (nested : Nested σ) (cs : List Char) : Prop :=
  ∀ (gap : List Char) (m : σ), gap.all isBlank = true →
    Yields (d.trivia nested) m (gap ++ cs) () m cs

/-- With `m` remembered and room for so many levels, the text is a token for `v`, wherever a token
may end; then `m'` is remembered. -/
structure ReadsLeaf (d : Dialect σ) (room : Nat) (m : σ) (text : List Char) (v : Value) (m' : σ) :
    Prop where
  leads : Leads text
  stands : ∀ rest, Delimits rest → d.Stands (d.nested room) (text ++ rest)
  token : ∀ rest, Delimits rest →
    Yields (d.token (d.nested room)) m (text ++ rest) (.value v) m' rest

/-- Round brackets are tokens of the dialect, and what they do to what is remembered. -/
structure Brackets (d : Dialect σ) where
  opens : σ → σ
  closes : σ → σ
  stands_opener : ∀ nested cs, d.Stands nested ('(' :: cs)
  stands_closer : ∀ nested cs, d.Stands nested (')' :: cs)
  stands_ended : ∀ nested, d.Stands nested []
  opener : ∀ nested m cs, Yields (d.token nested) m ('(' :: cs) (.opener .round) (opens m) cs
  closer : ∀ nested m cs, Yields (d.token nested) m (')' :: cs) (.closer .round) (closes m) cs
  ended : ∀ nested m, Yields (d.token nested) m [] .ended m []

/-! ## Boxes -/

mutual

/-- With `m` remembered and room for so many levels, the box is read as the value, leaf by leaf;
then `m'` is remembered. -/
inductive Reads (d : Dialect σ) (br : d.Brackets) : Nat → σ → Box → Value → σ → Prop where
  | leaf {room : Nat} {m m' : σ} {text : List Char} {v : Value}
      (h : d.ReadsLeaf room m text v m') : Reads d br room m (.leaf text) v m'
  | group {room : Nat} {m m' : σ} {bs : List Box} {vs : List Value}
      (h : ReadsAll d br room (br.opens m) bs vs m') :
      Reads d br (room + 1) m (.group bs) (.list vs) (br.closes m')

/-- The boxes are read as the values, one after the other. -/
inductive ReadsAll (d : Dialect σ) (br : d.Brackets) :
    Nat → σ → List Box → List Value → σ → Prop where
  | nil {room : Nat} {m : σ} : ReadsAll d br room m [] [] m
  | cons {room : Nat} {m m₁ m' : σ} {b : Box} {bs : List Box} {v : Value} {vs : List Value}
      (h : Reads d br room m b v m₁) (hs : ReadsAll d br room m₁ bs vs m') :
      ReadsAll d br room m (b :: bs) (v :: vs) m'

end

variable {d : Dialect σ} {br : d.Brackets}

mutual

/-- A box that is read back has leaves that begin as they should. -/
theorem Reads.proper : {b : Box} → {room : Nat} → {m m' : σ} → {v : Value} →
    Reads d br room m b v m' → b.Proper
  | .leaf text, _, _, _, _, .leaf h => by
    rw [Proper]
    exact h.leads
  | .group bs, _, _, _, _, .group h => by
    rw [proper_group]
    exact h.properAll

/-- So do all boxes of a list that is read back. -/
theorem ReadsAll.properAll : {bs : List Box} → {room : Nat} → {m m' : σ} → {vs : List Value} →
    ReadsAll d br room m bs vs m' → ProperAll bs
  | [], _, _, _, _, .nil => by
    rw [ProperAll]
    trivial
  | b :: bs, _, _, _, _, .cons h hs => by
    rw [properAll_cons]
    exact ⟨h.proper, hs.properAll⟩

end

/-! ## Lists -/

/-- What follows an item begins with a gap or closes the list. -/
theorem delimits_laidRest {bs : List Box} {ts : List Char} (h : LaidRest bs ts)
    (rest : List Char) : Delimits (ts ++ ')' :: rest) := by
  cases h with
  | nil => exact delimits_closer rest
  | cons hgap _ _ =>
    obtain ⟨c, cs, rfl, hc⟩ := hgap.exists_cons
    simp [Delimits, hc]

/-- What comes before an item is made of blanks. -/
theorem isLead_all_isBlank {b : Box} {lead : List Char} (h : b.IsLead lead) :
    lead.all isBlank = true := by
  obtain rfl | ⟨items, n, -, rfl⟩ := h
  · rfl
  · exact IsGap.all_isBlank (.inr ⟨n, rfl⟩)

/-- What is done with an item, told from the token that it begins with. -/
theorem item_bind {β : Type} (d : Dialect σ) (nested : Nested σ) (f : Item → ReadM σ β) :
    d.item nested >>= f = (do
      d.trivia nested
      let p ← Cursor.here
      match ← d.token nested with
      | .ended => f (.ended p)
      | .opener b => nested.items b p >>= fun vs => f (.value (.list vs))
      | .closer b => f (.closer b p)
      | .value v => f (.value v)) := by
  simp only [item, bind_assoc]
  congr 1; funext _
  congr 1; funext p
  congr 1; funext token
  cases token <;> simp only [pure_bind, bind_assoc]

/-- The bracket that closes a list ends the loop over its items. -/
theorem yields_items_closer (br : d.Brackets) (nested : Nested σ) (m : σ) (start : Pos)
    (taken : List Value) (rest : List Char) :
    Yields (ReadM.loop (d.itemsRound nested .round start) taken) m (')' :: rest) taken.reverse
      (br.closes m) rest := by
  refine .loop_done ?_
  unfold itemsRound
  rw [item_bind]
  refine (br.stands_closer nested rest [] m rfl).bind (.here fun p => ?_)
  exact (br.closer nested m rest).bind (.pure _ _ _)

mutual

/-- **A laid out box is read as its value.** -/
theorem Reads.yields_item : {b : Box} → {room : Nat} → {m m' : σ} → {v : Value} →
    Reads d br room m b v m' → {t gap rest : List Char} → b.Laid t → gap.all isBlank = true →
    Delimits rest → Yields (d.item (d.nested room)) m (gap ++ (t ++ rest)) (.value v) m' rest
  | .leaf text, room, m, m', v, .leaf h, _, gap, rest, .leaf _, hgap, hrest =>
    (h.stands rest hrest gap m hgap).bind
      (.here fun p => (h.token rest hrest).bind (.pure _ _ _))
  | .group bs, _, m, _, _, .group h, t, gap, rest, hl, hgap, _ => by
    obtain ⟨ts, rfl, hts⟩ := h.yields_group hl
    refine (br.stands_opener _ _ gap m hgap).bind (.here fun p => ?_)
    apply (br.opener _ m (ts ++ rest)).bind
    exact ((hts p rest).within _).bind (.pure _ _ _)

/-- The items of a laid out group are read up to its closing bracket. -/
theorem ReadsAll.yields_group : {bs : List Box} → {room : Nat} → {m m' : σ} → {vs : List Value} →
    ReadsAll d br room m bs vs m' → {t : List Char} → (group bs).Laid t →
    ∃ ts, t = '(' :: ts ∧ ∀ start rest,
      Yields (d.items (d.nested room) .round start) m (ts ++ rest) vs (br.closes m') rest
  | [], _, m, _, _, .nil, _, .empty =>
    ⟨[')'], rfl, fun start rest => yields_items_closer br _ m start [] rest⟩
  | b :: bs, room, m, m', _, @ReadsAll.cons _ _ _ _ _ _ _ _ _ v _ h hs, _,
      .group hlead hb hbs => by
    refine ⟨_, rfl, fun start rest => ?_⟩
    rw [List.append_assoc, List.append_assoc, List.append_assoc, List.singleton_append]
    refine .loop_more ((h.yields_item hb (isLead_all_isBlank hlead)
      (delimits_laidRest hbs rest)).bind (.pure _ _ _)) ?_ (hs.yields_items hbs start [v] rest)
    -- The first item is not empty, so the loop has taken something off its allowance.
    have := List.length_pos_iff.mpr (hb.ne_nil h.proper)
    simp only [List.length_append]
    omega

/-- The items are read one after the other, each with the gap before it, up to the closing bracket.
-/
theorem ReadsAll.yields_items : {bs : List Box} → {room : Nat} → {m m' : σ} → {vs : List Value} →
    ReadsAll d br room m bs vs m' → {ts : List Char} → LaidRest bs ts → (start : Pos) →
    (taken : List Value) → (rest : List Char) →
    Yields (ReadM.loop (d.itemsRound (d.nested room) .round start) taken) m (ts ++ ')' :: rest)
      (taken.reverse ++ vs) (br.closes m') rest
  | [], room, m, _, _, .nil, _, .nil, start, taken, rest => by
    rw [List.append_nil]
    exact yields_items_closer br _ m start taken rest
  | b :: bs, room, m, m', _, @ReadsAll.cons _ _ _ _ _ _ _ _ _ v _ h hs, _, .cons hgap hb hbs,
      start, taken, rest => by
    rw [List.append_cons taken.reverse, ← List.reverse_cons, List.append_assoc, List.append_assoc]
    refine .loop_more ((h.yields_item hb hgap.all_isBlank (delimits_laidRest hbs rest)).bind
      (.pure _ _ _)) ?_ (hs.yields_items hbs start (v :: taken) rest)
    have := List.length_pos_iff.mpr (hb.ne_nil h.proper)
    simp only [List.length_append]
    omega

end

/-! ## Values -/

/-- Every leaf is read back as a value that goes with it, as long as `inv` holds of what is
remembered and `inForce` of the abbreviations in force; and lists go together item by item. -/
structure ReadsBack (d : Dialect σ) (br : d.Brackets) (sp : Spelling) (leaf : Value → Prop)
    (inForce : Abbreviations → Prop) (inv : σ → Prop) (rel : Value → Value → Prop)
    (relAll : List Value → List Value → Prop) : Prop where
  opens : ∀ {m}, inv m → inv (br.opens m)
  closes : ∀ {m}, inv m → inv (br.closes m)
  scope : ∀ {ab items}, inForce ab → (∀ v ∈ items, leaf v ∨ ∃ vs, v = .list vs) →
    ∀ i, inForce (ab.scope items i)
  leaf : ∀ {room m ab v}, inv m → inForce ab → leaf v →
    ∃ w m', Reads d br room m (v.box sp ab) w m' ∧ rel v w ∧ inv m'
  nil : relAll [] []
  cons : ∀ {v w vs ws}, rel v w → relAll vs ws → relAll (v :: vs) (w :: ws)
  list : ∀ {vs ws}, relAll vs ws → rel (.list vs) (.list ws)

namespace ReadsBack

variable {sp : Spelling} {leaf : Value → Prop} {inForce : Abbreviations → Prop} {inv : σ → Prop}
  {rel : Value → Value → Prop} {relAll : List Value → List Value → Prop}

/-- The items of a list are read back in turn, with the memory that the one before has left. -/
theorem boxAll (h : ReadsBack d br sp leaf inForce inv rel relAll) {room : Nat}
    {scope : Nat → Abbreviations} (hscope : ∀ i, inForce (scope i)) {items : List Value}
    (hitems : ∀ v ∈ items, ∀ m ab, inv m → inForce ab →
      ∃ w m', Reads d br room m (v.box sp ab) w m' ∧ rel v w ∧ inv m')
    (i : Nat) (m : σ) (hm : inv m) :
    ∃ ws m', ReadsAll d br room m (Value.boxAll sp scope i items) ws m' ∧ relAll items ws ∧
      inv m' := by
  induction items generalizing i m with
  | nil =>
    rw [Value.boxAll]
    exact ⟨[], m, .nil, h.nil, hm⟩
  | cons v items ih =>
    rw [Value.boxAll]
    obtain ⟨w, m₁, hw, hrel, hm₁⟩ := hitems v (by simp) m (scope i) hm (hscope i)
    obtain ⟨ws, m', hws, hrels, hm'⟩ := ih (fun u hu => hitems u (by simp [hu])) (i + 1) m₁ hm₁
    exact ⟨w :: ws, m', .cons hw hws, h.cons hrel hrels, hm'⟩

/-- **A value is read back** as one that goes with it. -/
theorem box (h : ReadsBack d br sp leaf inForce inv rel relAll) {room : Nat} {v : Value}
    (hv : v.Built leaf room) (m : σ) (ab : Abbreviations) (hm : inv m) (hab : inForce ab) :
    ∃ w m', Reads d br room m (v.box sp ab) w m' ∧ rel v w ∧ inv m' := by
  induction hv generalizing m ab with
  | leaf hleaf => exact h.leaf hm hab hleaf
  | @list room items hitems ih =>
    -- Whatever form the list begins, the abbreviations within it are as they should be.
    have hscope : ∀ i, inForce (ab.scope items i) := by
      refine h.scope hab fun v hv => ?_
      cases hitems v hv with
      | leaf hleaf => exact .inl hleaf
      | list _ => exact .inr ⟨_, rfl⟩
    obtain ⟨ws, m', hws, hrels, hm'⟩ := h.boxAll hscope ih 0 _ (h.opens hm)
    rw [Value.box]
    exact ⟨.list ws, _, .group hws, h.list hrels, h.closes hm'⟩

end ReadsBack

/-! ## Documents -/

/-- What a document does with an item, after the values `taken` (in reverse). -/
def collect (taken : List Value) : Item → ReadM σ (List Value ⊕ List Value)
  | .value v => return .inl (v :: taken)
  | .closer b p => stray b p
  | .ended _ => return .inr taken.reverse

/-- A round of reading all values is to read an item and collect it. -/
theorem readAllRound_eq (d : Dialect σ) (taken : List Value) (s : Session σ) :
    d.readAllRound taken s = (d.item (d.nested s.room) >>= collect taken) s := rfl

/-- The end of the input ends a document. -/
theorem yields_collect_ended (br : d.Brackets) (nested : Nested σ) (m : σ) {gap : List Char}
    (hgap : gap.all isBlank = true) (taken : List Value) :
    Yields (d.item nested >>= collect taken) m gap (.inr taken.reverse) m [] := by
  have hstands := br.stands_ended nested gap m hgap
  rw [List.append_nil] at hstands
  rw [item_bind]
  exact hstands.bind (.here fun p => (br.ended nested m).bind (.pure _ _ _))

/-- Where only blanks are left, reading comes to an end with the values taken. -/
theorem loop_readAllRound_ended (br : d.Brackets) {m : σ} {gap : List Char}
    (hgap : gap.all isBlank = true) (taken : List Value) (s : Session σ) (hm : s.memory = m)
    (hs : s.cursor.Before gap) :
    ∃ c', c'.Before [] ∧ ReadM.loop d.readAllRound taken s
      = .ok taken.reverse { s with cursor := c', memory := m } := by
  obtain ⟨c', hc', hround⟩ := yields_collect_ended br (d.nested s.room) m hgap taken s hm hs
  refine ⟨c', hc', ?_⟩
  unfold ReadM.loop SExpr.loop
  simp only [readAllRound_eq, hround]

/-- What is left of a document, after some values have been taken. -/
theorem loop_readAllRound {layout : Layout} {sp : Spelling} {ab : Abbreviations} {room : Nat}
    {m' : σ} (written : List Value) {vs : List Value} {m : σ}
    (h : ReadsAll d br room m (written.map (Value.box sp ab)) vs m') (gap : List Char)
    (hgap : gap.all isBlank = true) (taken : List Value) (s : Session σ) (hroom : s.room = room)
    (hm : s.memory = m) (hs : s.cursor.Before (gap ++ Value.formatAll layout sp ab written)) :
    ∃ c', c'.Before [] ∧ ReadM.loop d.readAllRound taken s
      = .ok (taken.reverse ++ vs) { s with cursor := c', memory := m' } := by
  induction written generalizing m vs gap taken s with
  | nil =>
    cases h
    rw [Value.formatAll, List.flatMap_nil, List.append_nil] at hs
    rw [List.append_nil]
    exact loop_readAllRound_ended br hgap taken s hm hs
  | cons w written ih =>
    cases h with
    | @cons _ _ m₁ _ _ _ v vs h hs' =>
      obtain ⟨t, ht, hformat⟩ := Value.laid_format layout sp ab w h.proper
      rw [Value.formatAll, List.flatMap_cons, hformat, List.append_assoc,
        List.singleton_append] at hs
      -- The newline that ends each text is where its last token may end.
      have hround (rest : List Char) : Yields (d.item (d.nested room) >>= collect taken) m
          (gap ++ (t ++ '\n' :: rest)) (.inl (v :: taken)) m₁ ('\n' :: rest) :=
        (h.yields_item ht hgap (delimits_newline rest)).bind (.pure _ _ _)
      obtain ⟨c₁, hc₁, hround⟩ := hround _ s hm hs
      obtain ⟨c₂, hc₂, hrest⟩ := ih hs' ['\n'] (by decide) (v :: taken)
        { s with cursor := c₁, memory := m₁ } hroom rfl hc₁
      refine ⟨c₂, hc₂, ?_⟩
      rw [List.append_cons taken.reverse, ← List.reverse_cons]
      refine loop_ok_more (fun _ _ _ => stuck_ne_ok) (·.cursor.located) ?_ ?_ hrest
      · subst hroom
        exact hround
      · have := List.length_pos_iff.mpr (ht.ne_nil h.proper)
        simp only [Cursor.length_located, hc₁.unread, hs.unread, List.length_append,
          List.length_cons]
        omega

/-- **A written document is read back**, whatever its layout, as the values that its boxes are
read as. -/
theorem readAll_formatAll {layout : Layout} {sp : Spelling} {ab : Abbreviations} {m m' : σ}
    {written vs : List Value} (s : Session σ)
    (h : ReadsAll d br s.room m (written.map (Value.box sp ab)) vs m') (hm : s.memory = m)
    (hs : s.cursor.Before (Value.formatAll layout sp ab written)) :
    ∃ c', c'.Before [] ∧ d.readAll s = .ok vs { s with cursor := c', memory := m' } :=
  loop_readAllRound written h [] rfl [] s rfl hm hs

/-- **A leaf on its own** is all that is read. -/
theorem ReadsLeaf.readAll {m m' : σ} {text : List Char} {v : Value} (br : d.Brackets)
    (s : Session σ) (h : d.ReadsLeaf s.room m text v m') (hm : s.memory = m)
    (hs : s.cursor.Before text) :
    ∃ c', c'.Before [] ∧ d.readAll s = .ok [v] { s with cursor := c', memory := m' } := by
  have hdelimits : Delimits [] := by simp [Delimits]
  have hitem : Yields (d.item (d.nested s.room)) m ([] ++ (text ++ [])) (.value v) m' [] :=
    (Reads.leaf h : Reads d br s.room m (.leaf text) v m').yields_item (.leaf text) rfl hdelimits
  rw [List.nil_append, List.append_nil] at hitem
  have hround : Yields (d.item (d.nested s.room) >>= collect []) m text (.inl [v]) m' [] :=
    hitem.bind (.pure _ _ _)
  obtain ⟨c₁, hc₁, hround⟩ := hround s hm hs
  obtain ⟨c₂, hc₂, hrest⟩ :=
    loop_readAllRound_ended br rfl [v] { s with cursor := c₁, memory := m' } rfl hc₁
  refine ⟨c₂, hc₂, loop_ok_more (fun _ _ _ => stuck_ne_ok) (·.cursor.located) hround ?_ hrest⟩
  obtain ⟨c, cs, rfl, -⟩ := h.leads
  simp only [Cursor.length_located, hc₁.unread, hs.unread, List.length_nil, List.length_cons]
  omega

/-- A session over a text begins before its characters. -/
theorem before_ofString (s : String) : ({ source := .ofString s } : Cursor).Before s.toList := by
  have hat := Cursor.at_giving (fun _ => true) .start s.toList none
  rw [← Source.ofString_eq] at hat
  exact hat.before

/-- The same for a text of its own. -/
theorem parse_formatAll {layout : Layout} {sp : Spelling} {ab : Abbreviations} {m m' : σ}
    {written vs : List Value} (h : ReadsAll d br 500 m (written.map (Value.box sp ab)) vs m') :
    d.parse m (String.ofList (Value.formatAll layout sp ab written)) = .ok vs := by
  have hs := before_ofString (String.ofList (Value.formatAll layout sp ab written))
  rw [String.toList_ofList] at hs
  obtain ⟨c', -, hread⟩ := readAll_formatAll (.start (.ofString _) m) h rfl hs
  unfold parse
  rw [hread]

/-- **A written document is read back** as values that go with those that were written. -/
theorem ReadsBack.parse {sp : Spelling} {leaf : Value → Prop} {inForce : Abbreviations → Prop}
    {inv : σ → Prop} {rel : Value → Value → Prop} {relAll : List Value → List Value → Prop}
    (h : ReadsBack d br sp leaf inForce inv rel relAll) (layout : Layout) (ab : Abbreviations)
    {vs : List Value} (hvs : ∀ v ∈ vs, v.Built leaf 500) {m : σ} (hm : inv m) (hab : inForce ab) :
    ∃ ws, d.parse m (String.ofList (Value.formatAll layout sp ab vs)) = .ok ws ∧ relAll vs ws := by
  obtain ⟨ws, m', hreads, hrels, -⟩ := h.boxAll (fun _ => hab) (fun v hv => h.box (hvs v hv)) 0 m hm
  rw [Value.boxAll_const] at hreads
  exact ⟨ws, parse_formatAll hreads, hrels⟩

end Dialect

end SExpr
