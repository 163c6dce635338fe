import SExpr.Proofs.Ensures
import SExpr.Proofs.ReadBack

/-!
# Boxes that are misread

If a dialect takes the text of one box for another value, then no text that holds the box is read
back: what stands before the box is read as ever, and whatever comes after it, the values differ at
its place.

* **`Dialect.MissesLeaf`**, **`Dialect.Misses`**: the text of a leaf, or of a box, is never read as
  an equal value.
* **`MissesAll.group`**: then neither is the text of a group around it,
* **`MissesAll.parse`**: nor that of a document.
-/

namespace SExpr

/-! ## Lists that differ at one place -/

/-- Lists that differ at one place differ, whatever comes after it. -/
theorem Value.eqAll_append_cons_eq_false {xs ys : List Value} (hlength : xs.length = ys.length)
    {w v : Value} (h : w.eq v = false) (more rest : List Value) :
    eqAll (xs ++ w :: more) (ys ++ v :: rest) = false := by
  induction xs generalizing ys with
  | nil =>
    cases ys with
    | nil => simp [eqAll, h]
    | cons y ys => simp at hlength
  | cons x xs ih =>
    cases ys with
    | nil => simp at hlength
    | cons y ys =>
      simp only [List.length_cons, Nat.add_right_cancel_iff] at hlength
      simp [eqAll, ih hlength]

/-- Whatever is taken after the values `taken` (in reverse), the result is not equal to `vs`. -/
def Value.Differs (vs taken : List Value) : Prop :=
  ∀ more, eqAll (taken.reverse ++ more) vs = false

/-- A difference among the values taken stays when another one is taken. -/
theorem Value.Differs.cons {vs taken : List Value} (h : Differs vs taken) (w : Value) :
    Differs vs (w :: taken) := by
  intro more
  rw [List.reverse_cons, List.append_assoc]
  exact h _

theorem Value.Differs.done {vs taken : List Value} (h : Differs vs taken) :
    eqAll taken.reverse vs = false := by
  have hdone := h []
  rwa [List.append_nil] at hdone

/-- As many values are `taken` as stand before `rest` in `vs`. -/
def Value.Remains (vs taken rest : List Value) : Prop :=
  ∃ done, vs = done ++ rest ∧ done.length = taken.length

theorem Value.Remains.cons {vs taken rest : List Value} {v : Value}
    (h : Remains vs taken (v :: rest)) (w : Value) : Remains vs (w :: taken) rest := by
  obtain ⟨done, rfl, hlength⟩ := h
  exact ⟨done ++ [v], by simp, by simp [hlength]⟩

/-- A value taken for one that it is not equal to makes a difference for good. -/
theorem Value.Remains.differs {vs taken rest : List Value} {v w : Value}
    (h : Remains vs taken (v :: rest)) (hw : w.eq v = false) : Differs vs (w :: taken) := by
  obtain ⟨done, rfl, hlength⟩ := h
  intro more
  rw [List.reverse_cons, List.append_assoc, List.singleton_append]
  exact eqAll_append_cons_eq_false (by simp [hlength]) hw more rest

namespace Dialect

open ReadM Text Box

variable {σ : Type} {d : Dialect σ} {br : d.Brackets}

/-- What is yielded first decides where the rest begins. -/
theorem ensures_bind_of_yields {α β : Type} {x : ReadM σ α} {f : α → ReadM σ β} {m m' : σ}
    {cs rest : List Char} {a : α} {s : Session σ} {Q : β → Session σ → Prop}
    (hx : Yields x m cs a m' rest) (hm : s.memory = m) (hs : s.cursor.Before cs)
    (hf : ∀ c, c.Before rest → Ensures (f a) { s with cursor := c, memory := m' } Q) :
    Ensures (x >>= f) s Q := by
  obtain ⟨c, hc, hok⟩ := hx s hm hs
  refine Ensures.bind (P := fun b s' => b = a ∧ s' = { s with cursor := c, memory := m' }) ?_ ?_
  · intro b s' h
    rw [hok] at h
    cases h
    exact ⟨rfl, rfl⟩
  · rintro b s' ⟨rfl, rfl⟩
    exact hf c hc

/-! ## Leaves and boxes -/

/-- With `m` remembered, the text is a token for a value other than `v`, wherever a token may end,
or it is not read at all. -/
structure MissesLeaf (d : Dialect σ) (room : Nat) (m : σ) (text : List Char) (v : Value) :
    Prop where
  stands : ∀ rest, Delimits rest → d.Stands (d.nested room) (text ++ rest)
  token : ∀ rest (s : Session σ), Delimits rest → s.memory = m →
    s.cursor.Before (text ++ rest) →
    Ensures (d.token (d.nested room)) s fun t _ => ∃ w, t = .value w ∧ w.eq v = false

/-- With `m` remembered, the box is read as a value other than `v`, however it is laid out, or it is
not read at all. -/
def Misses (d : Dialect σ) (room : Nat) (m : σ) (b : Box) (v : Value) : Prop :=
  ∀ (t gap rest : List Char) (s : Session σ), b.Laid t → gap.all isBlank = true → Delimits rest →
    s.memory = m → s.cursor.Before (gap ++ (t ++ rest)) →
    Ensures (d.item (d.nested room)) s fun i _ => ∃ w, i = .value w ∧ w.eq v = false

/-- One of the boxes is misread, and those before it are read. -/
inductive MissesAll (d : Dialect σ) (br : d.Brackets) (room : Nat) :
    σ → List Box → List Value → Prop where
  | here {m : σ} {b : Box} {bs : List Box} {v : Value} {vs : List Value}
      (h : d.Misses room m b v) : MissesAll d br room m (b :: bs) (v :: vs)
  | there {m m₁ : σ} {b : Box} {bs : List Box} {v w : Value} {vs : List Value}
      (h : Reads d br room m b w m₁) (hs : MissesAll d br room m₁ bs vs) :
      MissesAll d br room m (b :: bs) (v :: vs)

/-- A leaf that is read as something else is misread. -/
theorem ReadsLeaf.misses {room : Nat} {m m' : σ} {text : List Char} {v w : Value}
    (h : d.ReadsLeaf room m text w m') (hw : w.eq v = false) : d.MissesLeaf room m text v := by
  refine ⟨h.stands, fun rest s hrest hm hs t s' hok => ?_⟩
  obtain ⟨rfl, -⟩ := (h.token rest hrest).unique hm hs hok
  exact ⟨w, rfl, hw⟩

/-- A leaf that is misread is misread as a box as well. -/
theorem MissesLeaf.misses {room : Nat} {m : σ} {text : List Char} {v : Value}
    (h : d.MissesLeaf room m text v) : d.Misses room m (.leaf text) v := by
  intro t gap rest s hlaid hgap hrest hm hs
  cases hlaid
  refine ensures_bind_of_yields (h.stands rest hrest gap m hgap) hm hs fun c hc => ?_
  refine ensures_here fun p => ?_
  refine (h.token rest _ hrest rfl hc).bind fun t s' ht => ?_
  obtain ⟨w, rfl, hw⟩ := ht
  exact .pure ⟨w, rfl, hw⟩

/-! ## Loops

A loop that reads one box after the other has either not come to the misread box yet, or has already
taken a value that differs. -/

/-- The first of the boxes is read and a later one is misread, or the first one is. -/
theorem MissesAll.ensures_item {room : Nat} {m : σ} {b : Box} {bs : List Box} {vs : List Value}
    (h : MissesAll d br room m (b :: bs) vs) {t gap rest : List Char} {s : Session σ}
    (hlaid : b.Laid t) (hgap : gap.all isBlank = true) (hrest : Delimits rest)
    (hm : s.memory = m) (hs : s.cursor.Before (gap ++ (t ++ rest))) {all taken : List Value}
    (hleft : Value.Remains all taken vs) :
    Ensures (d.item (d.nested room)) s fun i s' => ∃ w, i = .value w ∧
      (Value.Differs all (w :: taken) ∨ ∃ m₁ vs₁, MissesAll d br room m₁ bs vs₁ ∧
        Value.Remains all (w :: taken) vs₁ ∧ s'.memory = m₁ ∧ s'.cursor.Before rest ∧
        s'.room = s.room) := by
  cases h with
  | here h =>
    refine (h t gap rest s hlaid hgap hrest hm hs).mono fun i s' hi => ?_
    obtain ⟨w, rfl, hw⟩ := hi
    exact ⟨w, rfl, .inl (hleft.differs hw)⟩
  | there h hs' =>
    -- This box is read as it should be, so the misread one is still to come.
    intro i s' hok
    obtain ⟨rfl, hc, hs'eq⟩ := (h.yields_item hlaid hgap hrest).unique hm hs hok
    refine ⟨_, rfl, .inr ⟨_, _, hs', hleft.cons _, ?_, hc, ?_⟩⟩
    · rw [hs'eq]
    · rw [hs'eq]
      rfl

/-- A list with a box that is misread in it is not empty. -/
theorem MissesAll.exists_cons {room : Nat} {m : σ} {bs : List Box} {vs : List Value}
    (h : MissesAll d br room m bs vs) : ∃ b bs', bs = b :: bs' := by
  cases h with
  | here h => exact ⟨_, _, rfl⟩
  | there h hs => exact ⟨_, _, rfl⟩

/-- The loop over the items of a group stands before the misread box. -/
def Approaches (d : Dialect σ) (br : d.Brackets) (room : Nat) (all : List Value) (rest : List Char)
    (taken : List Value) (s : Session σ) : Prop :=
  ∃ b bs vs gap t ts, MissesAll d br room s.memory (b :: bs) vs ∧ Value.Remains all taken vs ∧
    gap.all isBlank = true ∧ b.Laid t ∧ LaidRest bs ts ∧
    s.cursor.Before (gap ++ (t ++ (ts ++ ')' :: rest)))

/-- **The items of a group** with a misread box among them. -/
theorem ensures_items_of_approaches {room : Nat} {all : List Value} {rest : List Char} {start : Pos}
    {s : Session σ} (h : Approaches d br room all rest [] s) :
    Ensures (d.items (d.nested room) .round start) s fun ws _ => Value.eqAll ws all = false := by
  -- The invariant has two stages: before the misread box, and after a value that differs.
  refine Ensures.loop
    (fun taken s' => Approaches d br room all rest taken s' ∨ Value.Differs all taken)
    (fun _ _ _ => stuck_ne_ok) (fun taken s₁ hinv => ?_) (.inl h)
  rcases hinv with ⟨b, bs, vs, gap, t, ts, hmiss, hleft, hgap, hlaid, hlaids, hs⟩ | hdiffers
  · refine (hmiss.ensures_item hlaid hgap (delimits_laidRest hlaids rest) rfl hs hleft).bind ?_
    rintro i s₂ ⟨w, rfl, hw⟩
    refine .pure ?_
    rcases hw with hw | ⟨m₁, vs₁, hmiss₁, hleft₁, hm₁, hs₂, -⟩
    · exact .inr hw
    · obtain ⟨b₁, bs₁, rfl⟩ := hmiss₁.exists_cons
      cases hlaids with
      | cons hgap₁ hlaid₁ hlaids₁ =>
        subst hm₁
        rw [List.append_assoc, List.append_assoc] at hs₂
        exact .inl ⟨b₁, bs₁, vs₁, _, _, _, hmiss₁, hleft₁, hgap₁.all_isBlank, hlaid₁, hlaids₁, hs₂⟩
  · -- Once a value differs, it does not matter what else is read.
    refine Ensures.bind (P := fun _ _ => True) (fun _ _ _ => trivial) fun i s₂ _ => ?_
    cases i with
    | value w => exact .pure (.inr (hdiffers.cons w))
    | ended p => exact ensures_fail
    | closer got p =>
      by_cases hgot : got = .round
      · simp only [hgot, if_true]
        exact .pure hdiffers.done
      · simp only [hgot, if_false]
        exact ensures_stray

/-- **A group with a misread box in it is misread.** -/
theorem MissesAll.group {room : Nat} {m : σ} {bs : List Box} {vs : List Value}
    (h : MissesAll d br room (br.opens m) bs vs) :
    d.Misses (room + 1) m (.group bs) (.list vs) := by
  intro t gap rest s hlaid hgap _ hm hs
  obtain ⟨b, bs, rfl⟩ := h.exists_cons
  cases hlaid with
  | group hlead hlaid hlaids =>
    refine ensures_bind_of_yields (br.stands_opener _ _ gap m hgap) hm hs fun c hc => ?_
    refine ensures_here fun p => ensures_bind_of_yields (br.opener _ m _) rfl hc fun c₁ hc₁ => ?_
    have happroaches : Approaches d br room vs rest []
        { s with context := .list .round :: s.context, cursor := c₁, memory := br.opens m } := by
      refine ⟨b, bs, vs, _, _, _, h, ⟨[], rfl, rfl⟩, isLead_all_isBlank hlead, hlaid, hlaids, ?_⟩
      simpa using hc₁
    refine Ensures.bind (P := fun ws _ => Value.eqAll ws vs = false) ?_ fun ws s₁ hws => ?_
    · exact ensures_within (ensures_items_of_approaches happroaches)
    · refine .pure ⟨.list ws, rfl, ?_⟩
      rw [Value.eq]
      exact hws

/-! ## Documents -/

/-- The loop over a document stands before the misread box. -/
def ApproachesAll (d : Dialect σ) (br : d.Brackets) (room : Nat) (layout : Layout) (sp : Spelling)
    (ab : Abbreviations) (all taken : List Value) (s : Session σ) : Prop :=
  ∃ written vs gap, MissesAll d br room s.memory (written.map (Value.box sp ab)) vs ∧
    Value.Remains all taken vs ∧ (∀ w ∈ written, (w.box sp ab).Proper) ∧
    gap.all isBlank = true ∧ s.room = room ∧
    s.cursor.Before (gap ++ Value.formatAll layout sp ab written)

/-- **A document** with a misread box in it. -/
theorem ensures_readAll_of_approaches {room : Nat} {layout : Layout} {sp : Spelling}
    {ab : Abbreviations} {all : List Value} {s : Session σ}
    (h : ApproachesAll d br room layout sp ab all [] s) :
    Ensures d.readAll s fun ws _ => Value.eqAll ws all = false := by
  refine Ensures.loop (fun taken s' =>
      ApproachesAll d br room layout sp ab all taken s' ∨ Value.Differs all taken)
    (fun _ _ _ => stuck_ne_ok) (fun taken s₁ hinv => ?_) (.inl h)
  rcases hinv with ⟨written, vs, gap, hmiss, hleft, hproper, hgap, hroom, hs⟩ | hdiffers
  · cases written with
    | nil => cases hmiss
    | cons v written =>
      obtain ⟨t, hlaid, hformat⟩ := Value.laid_format layout sp ab v (hproper v List.mem_cons_self)
      rw [Value.formatAll, List.flatMap_cons, hformat, List.append_assoc,
        List.singleton_append] at hs
      -- The session has kept its room, so each value of the document has as much as the first.
      have hitem := hmiss.ensures_item hlaid hgap (delimits_newline _) rfl hs hleft
      rw [← hroom] at hitem
      show Ensures (d.item (d.nested s₁.room) >>= collect taken) s₁ _
      refine hitem.bind ?_
      rintro i s₂ ⟨w, rfl, hw⟩
      refine .pure ?_
      rcases hw with hw | ⟨m₁, vs₁, hmiss₁, hleft₁, hm₁, hs₂, hroom₂⟩
      · exact .inr hw
      · subst hm₁
        rw [hroom] at hmiss₁
        refine .inl ⟨written, vs₁, ['\n'], hmiss₁, hleft₁, ?_, by decide, hroom₂.trans hroom, hs₂⟩
        exact fun w hw => hproper w (List.mem_cons_of_mem v hw)
  · show Ensures (d.item (d.nested s₁.room) >>= collect taken) s₁ _
    refine Ensures.bind (P := fun _ _ => True) (fun _ _ _ => trivial) fun i s₂ _ => ?_
    cases i with
    | value w => exact .pure (.inr (hdiffers.cons w))
    | closer b p => exact ensures_stray
    | ended p => exact .pure hdiffers.done

/-- The value that a document begins with is the first one read. -/
theorem ensures_readAll_of_yields {m m' : σ} {cs rest : List Char} {w : Value} (s : Session σ)
    (h : Yields (d.item (d.nested s.room)) m cs (.value w) m' rest) (hm : s.memory = m)
    (hs : s.cursor.Before cs) : Ensures d.readAll s fun vs _ => vs.head? = some w := by
  refine Ensures.loop
    (fun taken s₁ => taken = [] ∧ s₁ = s ∨ taken.getLast? = some w)
    (fun _ _ _ => stuck_ne_ok) (fun taken s₁ hinv => ?_) (.inl ⟨rfl, rfl⟩)
  show Ensures (d.item (d.nested s₁.room) >>= collect taken) s₁ _
  rcases hinv with ⟨rfl, rfl⟩ | hlast
  · exact ensures_bind_of_yields h hm hs fun c _ => .pure (.inr rfl)
  · -- Later values are taken in front of it.
    refine Ensures.bind (P := fun _ _ => True) (fun _ _ _ => trivial) fun i s₂ _ => ?_
    cases i with
    | value v =>
      refine .pure (.inr ?_)
      cases taken with
      | nil => cases hlast
      | cons u taken => exact hlast
    | closer b p => exact ensures_stray
    | ended p => exact .pure (List.head?_reverse.trans hlast)

/-- **A document with a misread box in it is not read back.** -/
theorem MissesAll.parse {layout : Layout} {sp : Spelling} {ab : Abbreviations} {m : σ}
    {written vs ws : List Value}
    (h : MissesAll d br 500 m (written.map (Value.box sp ab)) vs)
    (hproper : ∀ w ∈ written, (w.box sp ab).Proper)
    (hok : d.parse m (String.ofList (Value.formatAll layout sp ab written)) = .ok ws) :
    Value.eqAll ws vs = false := by
  have hs := before_ofString (String.ofList (Value.formatAll layout sp ab written))
  rw [String.toList_ofList] at hs
  have happroaches : ApproachesAll d br 500 layout sp ab vs []
      (.start (.ofString (String.ofList (Value.formatAll layout sp ab written))) m) :=
    ⟨written, vs, [], h, ⟨[], rfl, rfl⟩, hproper, rfl, rfl, hs⟩
  unfold Dialect.parse at hok
  cases hread : d.readAll
      (.start (.ofString (String.ofList (Value.formatAll layout sp ab written))) m) with
  | error e s' => simp [hread] at hok
  | ok us s' =>
    simp only [hread, Except.ok.injEq] at hok
    subst hok
    exact ensures_readAll_of_approaches happroaches us s' hread

end Dialect

end SExpr
