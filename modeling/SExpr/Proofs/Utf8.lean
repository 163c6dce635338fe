import Mathlib
import SExpr.Source.Utf8

/-!
# Decoding UTF-8

The decoder goes from byte to byte, so it is indifferent to how the bytes come in pieces. The bytes
fed to it are always those of the characters decoded, followed by what is left: the bytes of a
character that is not finished, or those at which the decoder has stopped.

* **`utf8EncodeChar_begins`**, **`first?_sound`**: the bytes of a character are exactly those that
  the decoder lets follow each other.
* **`Decoder.feed_encode`**: the bytes of characters are decoded to them.
* **`Decoder.Follows.feed`**: what has been decoded and what is left make up the bytes fed.
* **`Decoder.prefix_feed`**: nothing that could be decoded is left.
* **`Strict`**, **`strict_answers`**: what a source relies on in a decoder, and that this one is so.
-/

namespace SExpr.Utf8

/-! ## Encoding -/

/-- The bytes that stand for some characters. -/
def encode (cs : List Char) : List UInt8 := cs.flatMap String.utf8EncodeChar

@[simp] theorem encode_nil : encode [] = [] := rfl

theorem encode_append (cs ds : List Char) : encode (cs ++ ds) = encode cs ++ encode ds :=
  List.flatMap_append

@[simp] theorem encode_cons (c : Char) (cs : List Char) :
    encode (c :: cs) = String.utf8EncodeChar c ++ encode cs := List.flatMap_cons

/-- The bytes of a code point: one, or a first byte that tells how many follow, of six bits each. -/
def octets (n : Nat) : List UInt8 :=
  if n ≤ 0x7F then [.ofNat n]
  else if n ≤ 0x7FF then [.ofNat (n / 64 % 32 + 0xC0), .ofNat (n % 64 + 0x80)]
  else if n ≤ 0xFFFF then
    [.ofNat (n / 4096 % 16 + 0xE0), .ofNat (n / 64 % 64 + 0x80), .ofNat (n % 64 + 0x80)]
  else
    [.ofNat (n / 262144 % 8 + 0xF0), .ofNat (n / 4096 % 64 + 0x80), .ofNat (n / 64 % 64 + 0x80),
      .ofNat (n % 64 + 0x80)]

theorem utf8EncodeChar_eq (c : Char) : String.utf8EncodeChar c = octets c.toNat := rfl

theorem utf8EncodeChar_ofNat {n : Nat} (h : n.isValidChar) :
    String.utf8EncodeChar (Char.ofNat n) = octets n := by
  rw [utf8EncodeChar_eq, Char.toNat_ofNat, if_pos h]

theorem ofNat_of_eq {n : Nat} {b : UInt8} (h : n = b.toNat) : UInt8.ofNat n = b := by
  rw [h, UInt8.ofNat_toNat]

/-! ## One character -/

/-- The code point whose leading bits are given, with those of further bytes. -/
def extend : List UInt8 → Nat → Nat
  | [], code => code
  | b :: bs, code => extend bs (code * 64 + (b.toNat - 0x80))

namespace Unfinished

/-- These bytes may come next, and nothing is owed after them. -/
structure Finishes (u : Unfinished) (bs : List UInt8) : Prop where
  length : bs.length = u.owed
  first : ∀ b ∈ bs.head?, u.low ≤ b.toNat ∧ b.toNat ≤ u.high
  rest : ∀ b ∈ bs.tail, 0x80 ≤ b.toNat ∧ b.toNat ≤ 0xBF

/-- Whatever may come next, it makes up the bytes of a character. -/
def Sound (u : Unfinished) : Prop :=
  ∀ bs, u.Finishes bs → String.utf8EncodeChar (Char.ofNat (extend bs u.code)) = u.bytes ++ bs

/-- A byte that goes on with a character is in the bounds, and adds six bits to the code. -/
theorem next?_eq_some {u v : Unfinished} {b : UInt8} (h : u.next? b = some v) :
    (u.low ≤ b.toNat ∧ b.toNat ≤ u.high) ∧
      v = { bytes := u.bytes ++ [b], code := u.code * 64 + (b.toNat - 0x80), owed := u.owed - 1 } := by
  unfold next? at h
  split at h
  · next hb => exact ⟨hb, (Option.some.inj h).symm⟩
  · cases h

theorem next?_of_le {u : Unfinished} {b : UInt8} (h : u.low ≤ b.toNat ∧ b.toNat ≤ u.high) :
    u.next? b =
      some { bytes := u.bytes ++ [b], code := u.code * 64 + (b.toNat - 0x80), owed := u.owed - 1 } :=
  if_pos h

/-- What goes on and then finishes a character, finishes it. -/
theorem Finishes.cons {u : Unfinished} {b : UInt8} {bs : List UInt8} (howed : u.owed ≠ 0)
    (hb : u.low ≤ b.toNat ∧ b.toNat ≤ u.high) (hlength : bs.length = u.owed - 1)
    (hbs : ∀ c ∈ bs, 0x80 ≤ c.toNat ∧ c.toNat ≤ 0xBF) : u.Finishes (b :: bs) := by
  refine ⟨?_, ?_, hbs⟩
  · rw [List.length_cons, hlength]
    omega
  · rintro _ ⟨⟩
    exact hb

/-- A character that has gone on by a byte is finished by the same bytes as before. -/
theorem Sound.next {u v : Unfinished} {b : UInt8} (hu : u.Sound) (howed : u.owed ≠ 0)
    (h : u.next? b = some v) : v.Sound := by
  obtain ⟨hb, rfl⟩ := next?_eq_some h
  intro bs hbs
  have hrange : ∀ c ∈ bs, 0x80 ≤ c.toNat ∧ c.toNat ≤ 0xBF := by
    cases bs with
    | nil => exact fun c hc => absurd hc List.not_mem_nil
    | cons d ds =>
      intro c hc
      rcases List.mem_cons.mp hc with rfl | hc
      · exact hbs.first c rfl
      · exact hbs.rest c hc
  have hchar := hu (b :: bs) (Finishes.cons howed hb hbs.length hrange)
  rw [extend] at hchar
  rw [hchar, List.append_assoc, List.singleton_append]

end Unfinished

/-- The character that a byte begins, by the number of bytes that make it up. The ranges of the
second byte are narrower after four of the first bytes. -/
theorem first?_eq (b : UInt8) :
    first? b =
      if b.toNat < 0x80 then some { bytes := [b], code := b.toNat, owed := 0 }
      else if b.toNat < 0xC2 then none
      else if b.toNat < 0xE0 then some { bytes := [b], code := b.toNat - 0xC0, owed := 1 }
      else if b.toNat < 0xF0 then
        some
          { bytes := [b], code := b.toNat - 0xE0, owed := 2
            low := if b.toNat = 0xE0 then 0xA0 else 0x80
            high := if b.toNat = 0xED then 0x9F else 0xBF }
      else if b.toNat < 0xF5 then
        some
          { bytes := [b], code := b.toNat - 0xF0, owed := 3
            low := if b.toNat = 0xF0 then 0x90 else 0x80
            high := if b.toNat = 0xF4 then 0x8F else 0xBF }
      else none := by
  unfold first?
  generalize b.toNat = n
  grind

/-- A first byte below 0xE0 and one more byte are those of the code that they give bits to. -/
theorem utf8EncodeChar_extend_one {b c : UInt8} (hb : 0xC2 ≤ b.toNat ∧ b.toNat < 0xE0)
    (hc : 0x80 ≤ c.toNat ∧ c.toNat ≤ 0xBF) :
    String.utf8EncodeChar (Char.ofNat (extend [c] (b.toNat - 0xC0))) = [b, c] := by
  generalize hn : extend [c] (b.toNat - 0xC0) = n
  have hn : (b.toNat - 0xC0) * 64 + (c.toNat - 0x80) = n := hn
  have hvalid : n.isValidChar := by
    unfold Nat.isValidChar
    omega
  rw [utf8EncodeChar_ofNat hvalid, octets, if_neg (by omega), if_pos (by omega),
    ofNat_of_eq (b := b) (by omega), ofNat_of_eq (b := c) (by omega)]

/-- A first byte below 0xF0 and two more. The bounds on the second byte rule out surrogates, and
codes that fewer bytes would do for. -/
theorem utf8EncodeChar_extend_two {b c d : UInt8} (hb : 0xE0 ≤ b.toNat ∧ b.toNat < 0xF0)
    (hlow : (if b.toNat = 0xE0 then 0xA0 else 0x80) ≤ c.toNat)
    (hhigh : c.toNat ≤ if b.toNat = 0xED then 0x9F else 0xBF)
    (hd : 0x80 ≤ d.toNat ∧ d.toNat ≤ 0xBF) :
    String.utf8EncodeChar (Char.ofNat (extend [c, d] (b.toNat - 0xE0))) = [b, c, d] := by
  generalize hn : extend [c, d] (b.toNat - 0xE0) = n
  have hn : ((b.toNat - 0xE0) * 64 + (c.toNat - 0x80)) * 64 + (d.toNat - 0x80) = n := hn
  have hvalid : n.isValidChar ∧ 0x7FF < n := by
    unfold Nat.isValidChar
    split at hlow <;> split at hhigh <;> omega
  have hc : 0x80 ≤ c.toNat ∧ c.toNat ≤ 0xBF := by
    split at hlow <;> split at hhigh <;> omega
  rw [utf8EncodeChar_ofNat hvalid.1, octets, if_neg (by omega), if_neg (by omega),
    if_pos (by omega), ofNat_of_eq (b := b) (by omega), ofNat_of_eq (b := c) (by omega),
    ofNat_of_eq (b := d) (by omega)]

/-- A first byte from 0xF0 on and three more. The bounds on the second byte rule out codes that are
too large, and those that fewer bytes would do for. -/
theorem utf8EncodeChar_extend_three {b c d e : UInt8} (hb : 0xF0 ≤ b.toNat ∧ b.toNat < 0xF5)
    (hlow : (if b.toNat = 0xF0 then 0x90 else 0x80) ≤ c.toNat)
    (hhigh : c.toNat ≤ if b.toNat = 0xF4 then 0x8F else 0xBF)
    (hd : 0x80 ≤ d.toNat ∧ d.toNat ≤ 0xBF) (he : 0x80 ≤ e.toNat ∧ e.toNat ≤ 0xBF) :
    String.utf8EncodeChar (Char.ofNat (extend [c, d, e] (b.toNat - 0xF0))) = [b, c, d, e] := by
  generalize hn : extend [c, d, e] (b.toNat - 0xF0) = n
  have hn : (((b.toNat - 0xF0) * 64 + (c.toNat - 0x80)) * 64 + (d.toNat - 0x80)) * 64 +
    (e.toNat - 0x80) = n := hn
  have hvalid : n.isValidChar ∧ 0xFFFF < n := by
    unfold Nat.isValidChar
    split at hlow <;> split at hhigh <;> omega
  have hc : 0x80 ≤ c.toNat ∧ c.toNat ≤ 0xBF := by
    split at hlow <;> split at hhigh <;> omega
  rw [utf8EncodeChar_ofNat hvalid.1, octets, if_neg (by omega), if_neg (by omega),
    if_neg (by omega), ofNat_of_eq (b := b) (by omega), ofNat_of_eq (b := c) (by omega),
    ofNat_of_eq (b := d) (by omega), ofNat_of_eq (b := e) (by omega)]

/-- **A first byte** stands for what it says: the bytes that may follow it finish the very character
whose bytes they are. -/
theorem first?_sound {b : UInt8} {u : Unfinished} (h : first? b = some u) : u.Sound := by
  rw [first?_eq] at h
  rintro bs ⟨hlength, hfirst, hrest⟩
  split at h
  · next hb =>
    cases h
    obtain rfl := List.length_eq_zero_iff.mp hlength
    have hvalid : b.toNat.isValidChar := by
      unfold Nat.isValidChar
      omega
    show String.utf8EncodeChar (Char.ofNat b.toNat) = [b]
    rw [utf8EncodeChar_ofNat hvalid, octets, if_pos (by omega), ofNat_of_eq rfl]
  -- From here on, the ranges of the first byte begin where those above end.
  split at h
  · cases h
  split at h
  · cases h
    obtain ⟨c, rfl⟩ := List.length_eq_one_iff.mp hlength
    exact utf8EncodeChar_extend_one (by omega) (hfirst c rfl)
  split at h
  · cases h
    obtain ⟨c, d, rfl⟩ := List.length_eq_two.mp hlength
    obtain ⟨hlow, hhigh⟩ := hfirst c rfl
    exact utf8EncodeChar_extend_two (by omega) hlow hhigh (hrest d List.mem_cons_self)
  split at h
  · cases h
    obtain ⟨c, d, e, rfl⟩ := List.length_eq_three.mp hlength
    obtain ⟨hlow, hhigh⟩ := hfirst c rfl
    exact utf8EncodeChar_extend_three (by omega) hlow hhigh (hrest d List.mem_cons_self)
      (hrest e (List.mem_cons_of_mem d List.mem_cons_self))
  · cases h

theorem toNat_ofNat_of_lt {n : Nat} (h : n < 256) : (UInt8.ofNat n).toNat = n := by
  rw [UInt8.toNat_ofNat']
  omega

theorem first?_bytes {b : UInt8} {u : Unfinished} (h : first? b = some u) : u.bytes = [b] := by
  rw [first?_eq] at h
  grind

/-- The bytes of a character are a first byte and those that may follow it. -/
theorem utf8EncodeChar_begins (c : Char) :
    ∃ b bs u, String.utf8EncodeChar c = b :: bs ∧ first? b = some u ∧ u.Finishes bs ∧
      extend bs u.code = c.toNat := by
  have hvalid : c.toNat < 0xD800 ∨ 0xDFFF < c.toNat ∧ c.toNat < 0x110000 := c.valid
  rw [utf8EncodeChar_eq]
  generalize c.toNat = n at hvalid
  -- What each byte adds to the code is computed first, so that the cases are left with arithmetic.
  have hlast := toNat_ofNat_of_lt (n := n % 64 + 0x80) (by omega)
  have hthird := toNat_ofNat_of_lt (n := n / 64 % 64 + 0x80) (by omega)
  have hfourth := toNat_ofNat_of_lt (n := n / 4096 % 64 + 0x80) (by omega)
  unfold octets
  split
  · have hb := toNat_ofNat_of_lt (n := n) (by omega)
    have hfirst := first?_eq (.ofNat n)
    rw [hb, if_pos (by omega)] at hfirst
    exact ⟨_, _, _, rfl, hfirst, ⟨rfl, by simp, by simp⟩, rfl⟩
  split
  · have hb := toNat_ofNat_of_lt (n := n / 64 % 32 + 0xC0) (by omega)
    have hfirst := first?_eq (.ofNat (n / 64 % 32 + 0xC0))
    rw [hb, if_neg (by omega), if_neg (by omega), if_pos (by omega)] at hfirst
    refine ⟨_, _, _, rfl, hfirst, .cons (Nat.succ_ne_zero _) ?_ rfl (by simp), ?_⟩
    · simp only [hlast]
      omega
    · simp only [extend, hlast]
      omega
  split
  · have hb := toNat_ofNat_of_lt (n := n / 4096 % 16 + 0xE0) (by omega)
    have hfirst := first?_eq (.ofNat (n / 4096 % 16 + 0xE0))
    rw [hb, if_neg (by omega), if_neg (by omega), if_neg (by omega), if_pos (by omega)] at hfirst
    refine ⟨_, _, _, rfl, hfirst, .cons (Nat.succ_ne_zero _) ?_ rfl ?_, ?_⟩
    · simp only [hthird]
      split <;> split <;> omega
    · simp only [List.mem_singleton, forall_eq, hlast]
      omega
    · simp only [extend, hlast, hthird]
      omega
  · have hb := toNat_ofNat_of_lt (n := n / 262144 % 8 + 0xF0) (by omega)
    have hfirst := first?_eq (.ofNat (n / 262144 % 8 + 0xF0))
    rw [hb, if_neg (by omega), if_neg (by omega), if_neg (by omega), if_neg (by omega),
      if_pos (by omega)] at hfirst
    refine ⟨_, _, _, rfl, hfirst, .cons (Nat.succ_ne_zero _) ?_ rfl ?_, ?_⟩
    · simp only [hfourth]
      split <;> split <;> omega
    · simp only [List.mem_cons, List.not_mem_nil, or_false, forall_eq_or_imp, forall_eq, hlast,
        hthird]
      omega
    · simp only [extend, hlast, hthird, hfourth]
      omega

/-! ## Decoding -/

namespace Decoder

variable {d : Decoder} {u : Unfinished} {bs : List UInt8} {b : UInt8}

theorem feed_append (d : Decoder) (bs cs : List UInt8) : d.feed (bs ++ cs) = (d.feed bs).feed cs :=
  List.foldl_append

theorem feed_cons (d : Decoder) (b : UInt8) (bs : List UInt8) :
    d.feed (b :: bs) = (d.step b).feed bs := rfl

/-- A byte between characters begins one, or is rejected. -/
theorem step_of_none (hrejected : d.rejected = none) (hunfinished : d.unfinished = none) :
    d.step b = d.accept [b] (first? b) := by
  unfold step
  rw [hrejected, hunfinished]
  rfl

/-- A byte within a character goes on with it, or is rejected. -/
theorem step_of_some (hrejected : d.rejected = none) (hunfinished : d.unfinished = some u) :
    d.step b = d.accept u.bytes (u.next? b) := by
  unfold step
  rw [hrejected, hunfinished]
  rfl

theorem step_of_rejected (hrejected : d.rejected ≠ none) : d.step b = d :=
  if_pos (Option.isSome_iff_ne_none.mpr hrejected)

/-- A character that is begun is decoded when its bytes have been fed. -/
theorem feed_accept (seen : List UInt8) (hrejected : d.rejected = none) (hbs : u.Finishes bs) :
    (d.accept seen (some u)).feed bs =
      { d with chars := Char.ofNat (extend bs u.code) :: d.chars, unfinished := none } := by
  induction bs generalizing d u seen with
  | nil =>
    have howed : u.owed = 0 := hbs.length.symm
    exact if_pos howed
  | cons b bs ih =>
    have howed : u.owed = bs.length + 1 := hbs.length.symm
    have hb := hbs.first b rfl
    have haccept : d.accept seen (some u) = { d with unfinished := some u } :=
      if_neg (by omega)
    have hnext : Unfinished.Finishes
        { bytes := u.bytes ++ [b], code := u.code * 64 + (b.toNat - 0x80), owed := u.owed - 1 } bs :=
      ⟨by simp only [howed, Nat.add_sub_cancel],
        fun c hc => hbs.rest c (List.mem_of_mem_head? hc),
        fun c hc => hbs.rest c (List.mem_of_mem_tail hc)⟩
    have hstep := step_of_some (d := { d with unfinished := some u }) (b := b) hrejected rfl
    have hrest := ih (d := { d with unfinished := some u }) u.bytes hrejected hnext
    rw [haccept, feed_cons, hstep, Unfinished.next?_of_le hb, hrest, extend]

/-- Between two characters, the bytes of characters are decoded to them. -/
theorem feed_encode (hrejected : d.rejected = none) (hunfinished : d.unfinished = none)
    (cs : List Char) : d.feed (encode cs) = { d with chars := cs.reverse ++ d.chars } := by
  induction cs generalizing d with
  | nil => rfl
  | cons c cs ih =>
    obtain ⟨b, bs, u, hbytes, hfirst, hfinishes, hcode⟩ := utf8EncodeChar_begins c
    have hrest := ih (d := { d with chars := c :: d.chars, unfinished := none }) hrejected rfl
    rw [encode_cons, hbytes, feed_append, feed_cons, step_of_none hrejected hunfinished, hfirst,
      feed_accept [b] hrejected hfinishes, hcode, Char.ofNat_toNat, hrest, List.reverse_cons,
      List.append_assoc, List.singleton_append, hunfinished]

/-- The decoder, with characters decoded before. -/
def after (d : Decoder) (cs : List Char) : Decoder := { d with chars := d.chars ++ cs }

/-- Characters that were decoded before stay before those decoded now. -/
theorem accept_after (d : Decoder) (cs : List Char) (seen : List UInt8) (u? : Option Unfinished) :
    (d.after cs).accept seen u? = (d.accept seen u?).after cs := by
  unfold accept
  split
  · rfl
  · split <;> rfl

theorem step_after (d : Decoder) (cs : List Char) (b : UInt8) :
    (d.after cs).step b = (d.step b).after cs := by
  obtain ⟨chars, unfinished, rejected⟩ := d
  cases rejected with
  | some bytes => rfl
  | none => cases unfinished <;> exact accept_after ..

/-- What was decoded before has no part in what follows. -/
theorem feed_after (d : Decoder) (cs : List Char) (bs : List UInt8) :
    (d.after cs).feed bs = (d.feed bs).after cs := by
  induction bs generalizing d with
  | nil => rfl
  | cons b bs ih => rw [feed_cons, step_after, ih, feed_cons]

/-- How a decoder stands after some bytes: between two characters, within one, or where it has
stopped. -/
inductive Follows : Decoder → List UInt8 → Prop
  | between (chars : List Char) : Follows { chars } (encode chars.reverse)
  | within (chars : List Char) {u : Unfinished} (owed : u.owed ≠ 0) (sound : u.Sound)
      (begun : u.bytes ≠ []) :
      Follows { chars, unfinished := some u } (encode chars.reverse ++ u.bytes)
  | stopped (chars : List Char) {r : List UInt8} (begun : r ≠ []) (rest : List UInt8) :
      Follows { chars, rejected := some r } (encode chars.reverse ++ (r ++ rest))

/-- The next piece of a character leaves it unfinished or finishes it. -/
theorem follows_accept (seen : List UInt8) (hrejected : d.rejected = none) (hu : u.Sound)
    (hbegun : u.bytes ≠ []) :
    (d.accept seen (some u)).Follows (encode d.chars.reverse ++ u.bytes) := by
  obtain ⟨chars, unfinished, _⟩ := d
  obtain rfl : _ = none := hrejected
  unfold accept
  simp only
  split
  · next howed =>
    have hchar := hu [] ⟨howed.symm, by simp, by simp⟩
    rw [extend, List.append_nil] at hchar
    have hall := Follows.between (Char.ofNat u.code :: chars)
    rw [List.reverse_cons, encode_append, encode_cons, hchar, encode_nil, List.append_nil] at hall
    exact hall
  · next howed => exact .within chars howed hu hbegun

/-- A byte more is taken into a character, or stops the decoding. -/
theorem Follows.step (hd : d.Follows bs) (b : UInt8) : (d.step b).Follows (bs ++ [b]) := by
  -- Between characters the byte begins one or is refused; within one it goes on with it or is
  -- refused; and what is refused once is so for good.
  cases hd with
  | between chars =>
    rw [step_of_none rfl rfl]
    cases hfirst : first? b with
    | none => exact .stopped chars (List.cons_ne_nil b []) []
    | some u =>
      have hbytes := first?_bytes hfirst
      rw [← hbytes]
      refine follows_accept _ rfl (first?_sound hfirst) ?_
      rw [hbytes]
      exact List.cons_ne_nil b []
  | @within chars u howed hu hbegun =>
    rw [step_of_some rfl rfl, List.append_assoc]
    cases hnext : u.next? b with
    | none => exact .stopped chars hbegun [b]
    | some v =>
      obtain ⟨-, hv⟩ := Unfinished.next?_eq_some hnext
      have hbytes : v.bytes = u.bytes ++ [b] := by rw [hv]
      rw [← hbytes]
      refine follows_accept _ rfl (hu.next howed hnext) ?_
      rw [hbytes]
      exact List.append_ne_nil_of_right_ne_nil _ (List.cons_ne_nil b [])
  | stopped chars hbegun rest =>
    rw [step_of_rejected (by simp), List.append_assoc, List.append_assoc]
    exact .stopped chars hbegun (rest ++ [b])

/-- What follows the bytes fed so far follows all of them at the end, by one step for each byte. -/
theorem Follows.feed (hd : d.Follows bs) (cs : List UInt8) : (d.feed cs).Follows (bs ++ cs) := by
  induction cs generalizing d bs with
  | nil =>
    rw [List.append_nil]
    exact hd
  | cons b cs ih =>
    have h := ih (hd.step b)
    rw [List.append_assoc, List.singleton_append] at h
    exact h

/-- Characters whose bytes come first are decoded. -/
theorem prefix_feed {cs : List Char} (h : encode cs <+: bs) :
    cs <+: (Decoder.feed {} bs).chars.reverse := by
  obtain ⟨rest, rfl⟩ := h
  have hafter := feed_after {} cs.reverse rest
  rw [feed_append, feed_encode rfl rfl, List.append_nil, show
    ({ chars := cs.reverse } : Decoder) = after {} cs.reverse from rfl, hafter]
  show cs <+: ((Decoder.feed {} rest).chars ++ cs.reverse).reverse
  rw [List.reverse_append, List.reverse_reverse]
  exact List.prefix_append ..

/-- The answers of a decoder make up what it decodes when it is fed all at once. -/
theorem exists_answers (failing : Option String) (d : Decoder) (chunks : List (List UInt8)) :
    ∃ texts : List (List Char),
      texts.flatten = (feed { d with chars := [] } chunks.flatten).chars.reverse ∧
      d.answers failing chunks = texts.map .ok ++
        ((feed { d with chars := [] } chunks.flatten).fault? failing).toList.map .error := by
  induction chunks generalizing d with
  | nil => exact ⟨[], rfl, rfl⟩
  | cons chunk chunks ih =>
    generalize hd : feed { d with chars := [] } chunk = d'
    obtain ⟨texts, htexts, hanswers⟩ := ih d'
    have hfeed : feed { d with chars := [] } (chunk :: chunks).flatten =
        (feed { d' with chars := [] } chunks.flatten).after d'.chars := by
      rw [List.flatten_cons, feed_append, hd, ← feed_after]
      rfl
    refine ⟨d'.chars.reverse :: texts, ?_, ?_⟩
    · rw [hfeed, List.flatten_cons, htexts]
      exact List.reverse_append.symm
    · rw [hfeed, answers, hd, hanswers]
      rfl

end Decoder

/-! ## Answers -/

/-- What is relied on in a decoder. It is asked again and again about bytes that come in pieces. It
answers with chunks of characters, which make up the longest beginning of the bytes that is
well-formed, and then with an error if bytes are left. -/
def Strict (decoder : List (List UInt8) → List (Except Fault (List Char))) : Prop :=
  ∀ reads, ∃ (chunks : List (List Char)) (tail : List UInt8)
    (later : List (Except Fault (List Char))),
    reads.flatten = encode chunks.flatten ++ tail ∧
    (∀ cs, encode cs <+: reads.flatten → cs <+: chunks.flatten) ∧
    decoder reads = chunks.map .ok ++ later ∧
    (tail = [] → later = []) ∧ (tail ≠ [] → ∃ fault more, later = .error fault :: more)

/-- The decoder of this library tells with which bytes it had to stop. What is left begins with
them. -/
theorem exists_answers (reads : List (List UInt8)) :
    ∃ (chunks : List (List Char)) (tail : List UInt8) (bad : Option (List UInt8)),
      reads.flatten = encode chunks.flatten ++ tail ∧
      (∀ cs, encode cs <+: reads.flatten → cs <+: chunks.flatten) ∧
      (bad = none ↔ tail = []) ∧ (∀ bytes ∈ bad, bytes ≠ [] ∧ bytes <+: tail) ∧
      answers reads none = chunks.map .ok ++ bad.toList.map (.error <| .invalidBytes ·) := by
  have hsplit : ∃ chunks : List (List Char),
      chunks.flatten = (Decoder.feed {} reads.flatten).chars.reverse ∧
        answers reads none = chunks.map .ok ++
          ((Decoder.feed {} reads.flatten).fault? none).toList.map .error :=
    Decoder.exists_answers none {} reads
  obtain ⟨chunks, hchunks, hanswers⟩ := hsplit
  have hlongest : ∀ cs, encode cs <+: reads.flatten → cs <+: chunks.flatten :=
    fun cs hcs => hchunks ▸ Decoder.prefix_feed hcs
  have hfollows : (Decoder.feed {} reads.flatten).Follows reads.flatten :=
    (Decoder.Follows.between []).feed reads.flatten
  rw [hanswers]
  generalize Decoder.feed {} reads.flatten = d at hchunks hfollows ⊢
  generalize reads.flatten = bytes at hlongest hfollows
  -- All bytes are used up, or some of a character that is not complete are left, or some that were
  -- refused.
  cases hfollows with
  | between chars =>
    exact ⟨chunks, [], none, by rw [hchunks, List.append_nil], hlongest, by simp, by simp, rfl⟩
  | @within chars u _ _ hbegun =>
    refine ⟨chunks, u.bytes, some u.bytes, by rw [hchunks], hlongest, by simp [hbegun], ?_, rfl⟩
    rintro _ ⟨⟩
    exact ⟨hbegun, List.prefix_refl _⟩
  | @stopped chars r hbegun rest =>
    refine ⟨chunks, r ++ rest, some r, by rw [hchunks], hlongest, by simp [hbegun], ?_, rfl⟩
    rintro _ ⟨⟩
    exact ⟨hbegun, List.prefix_append r rest⟩

/-- The decoder of this library is strict. -/
theorem strict_answers : Strict (answers · none) := by
  intro reads
  obtain ⟨chunks, tail, bad, hbytes, hlongest, hbad, -, hanswers⟩ := exists_answers reads
  refine ⟨chunks, tail, _, hbytes, hlongest, hanswers, fun htail => ?_, fun htail => ?_⟩
  · rw [hbad.mpr htail]
    rfl
  · obtain ⟨bytes, rfl⟩ := Option.ne_none_iff_exists'.mp (mt hbad.mp htail)
    exact ⟨_, _, rfl⟩

end SExpr.Utf8
