import SExpr.Proofs.EntryPoints
import SExpr.Proofs.Utf8

/-!
# Bytes and texts as sources

The iterator over bytes yields the characters that the bytes stand for, as far as they are
well-formed, each with its place; then it yields an error if bytes are left, and is at its end. Of
the decoder it is only relied on that it is strict. So it makes no difference to a session whether
it reads a text or the bytes of the text, however they arrive.

* **`Utf8.Strict.answers`**: what a strict decoder makes of bytes.
* **`Source.bytes_agree`**: both iterators, and sessions over them.
-/

namespace SExpr

namespace Utf8

theorem encode_eq_nil {cs : List Char} (h : encode cs = []) : cs = [] := by
  cases cs with
  | nil => rfl
  | cons c cs =>
    obtain ⟨b, bs, u, hbytes, -⟩ := utf8EncodeChar_begins c
    rw [encode_cons, hbytes] at h
    cases h

theorem toUTF8_eq (s : String) : s.toUTF8.data.toList = encode s.toList := by
  rw [String.toUTF8_eq_toByteArray, ← String.utf8Encode_toList]
  exact List.toList_data_toByteArray

variable {decoder : List (List UInt8) → List (Except Fault (List Char))}

/-- The chunks that a strict decoder answers with make up the longest well-formed beginning of the
bytes, and an error comes after them exactly if bytes are left. -/
theorem Strict.answers (h : Strict decoder) (reads : List (List UInt8)) :
    ∃ cs tail fault,
      reads.flatten = encode cs ++ tail ∧
      (∀ ds, encode ds <+: reads.flatten → ds <+: cs) ∧
      (fault = none ↔ tail = []) ∧ ByteChars.Answers (decoder reads) cs fault := by
  obtain ⟨chunks, tail, later, hbytes, hlongest, hanswers, hnone, hsome⟩ := h reads
  have hlater : ∃ fault : Option Fault, (fault = none ↔ tail = []) ∧
      ByteChars.Answers later [] fault := by
    by_cases htail : tail = []
    · rw [hnone htail]
      exact ⟨none, by simp [htail], .nil⟩
    · obtain ⟨fault, more, rfl⟩ := hsome htail
      exact ⟨some fault, by simp [htail], .error fault more⟩
  obtain ⟨fault, hfault, hlater⟩ := hlater
  refine ⟨chunks.flatten, tail, fault, hbytes, hlongest, hfault, ?_⟩
  rw [hanswers, ← List.append_nil chunks.flatten]
  exact hlater.append chunks

/-- Of the bytes of a text nothing is left. -/
theorem Strict.answers_toUTF8 (h : Strict decoder) {s : String} {reads : List (List UInt8)}
    (hreads : reads.flatten = s.toUTF8.data.toList) :
    ByteChars.Answers (decoder reads) s.toList none := by
  obtain ⟨cs, tail, fault, hbytes, hlongest, hfault, hanswers⟩ := h.answers reads
  have hencode : reads.flatten = encode s.toList := hreads.trans (toUTF8_eq s)
  obtain ⟨more, rfl⟩ := hlongest s.toList (hencode ▸ List.prefix_refl _)
  -- All bytes belong to the text, so there are none for more characters and none are left.
  rw [hencode, encode_append, List.append_assoc, List.self_eq_append_right,
    List.append_eq_nil_iff] at hbytes
  rw [encode_eq_nil hbytes.1, List.append_nil, hfault.mpr hbytes.2] at hanswers
  exact hanswers

end Utf8

namespace Source

variable {decoder : List (List UInt8) → List (Except Fault (List Char))}

/-- **Byte and text sources agree.** Let a strict decoder make characters of bytes. For the bytes of
a text, however they come in pieces, the iterator over bytes yields what the iterator over the text
does: the characters of the text, each at its place, and then nothing more. Both are the same
source, and calls in any dialect get the same answers and leave the same sessions. For any bytes the
iterator yields the characters of their longest well-formed beginning, each at its place, then one
error if bytes are left, and nothing more. -/
theorem bytes_agree (hdecoder : Utf8.Strict decoder) :
    (∀ (s : String) (reads : List (List UInt8)), reads.flatten = s.toUTF8.data.toList →
      (∀ k, yields ByteChars.next? k { answers := decoder reads } =
          yields TextChars.next? k { rest := s.toList } ∧
        yields TextChars.next? k { rest := s.toList } =
          List.takeD k (yielded .start s.toList none) none) ∧
      ofAnswers (decoder reads) = ofString s ∧
      ∀ (σ : Type) (d : Dialect σ) (memory : σ) (limit : Nat) (calls : List Call),
        Call.answers d { Session.start (ofAnswers (decoder reads)) memory with limit } calls =
          Call.answers d { Session.start (ofString s) memory with limit } calls ∧
        Call.sessions d { Session.start (ofAnswers (decoder reads)) memory with limit } calls =
          Call.sessions d { Session.start (ofString s) memory with limit } calls) ∧
    ∀ reads : List (List UInt8), ∃ cs tail, ∃ fault : Option Fault,
      reads.flatten = Utf8.encode cs ++ tail ∧
      (∀ ds, Utf8.encode ds <+: reads.flatten → ds <+: cs) ∧
      (fault = none ↔ tail = []) ∧
      (∀ k, yields ByteChars.next? k { answers := decoder reads } =
        List.takeD k (yielded .start cs fault) none) ∧
      ofAnswers (decoder reads) = giving .start cs fault := by
  constructor
  -- A text has only well-formed bytes, so its iterators yield the same and never an error.
  · intro s reads hreads
    have hanswers := hdecoder.answers_toUTF8 hreads
    have hsource : ofAnswers (decoder reads) = ofString s := by
      rw [ofAnswers_eq hanswers, ofString_eq]
    refine ⟨fun k => ?_, hsource, fun σ d memory limit calls => ?_⟩
    · have htext : yields TextChars.next? k { rest := s.toList } =
          List.takeD k (yielded .start s.toList none) none :=
        TextChars.iterates.yields_eq ⟨rfl, rfl⟩ k
      have hbytes := ByteChars.iterates.yields_eq (ByteChars.stands_start hanswers) k
      exact ⟨hbytes.trans htext.symm, htext⟩
    · rw [hsource]
      exact ⟨rfl, rfl⟩
  · intro reads
    obtain ⟨cs, tail, fault, hbytes, hlongest, hfault, hanswers⟩ := hdecoder.answers reads
    exact ⟨cs, tail, fault, hbytes, hlongest, hfault,
      ByteChars.iterates.yields_eq (ByteChars.stands_start hanswers), ofAnswers_eq hanswers⟩

/-- The second character of the text comes in two pieces. -/
theorem bytes_agree_split :
    Utf8.Strict (Utf8.answers · none) ∧
      [[0x28, 0xCE], [], [0xBB, 0x0A], [0x29]].flatten = "(λ\n)".toUTF8.data.toList ∧
      (∀ k, yields ByteChars.next? k
          { answers := Utf8.answers [[0x28, 0xCE], [], [0xBB, 0x0A], [0x29]] none } =
        List.takeD k (yielded .start "(λ\n)".toList none) none) ∧
      Call.answers Dialect.scheme
          { Session.start (ofChunks [[0x28, 0xCE], [], [0xBB, 0x0A], [0x29]] none) () with
            limit := 1 } [.readAll, .next] =
        Call.answers Dialect.scheme
          { Session.start (ofString "(λ\n)") () with limit := 1 } [.readAll, .next] := by
  have h : [[0x28, 0xCE], [], [0xBB, 0x0A], [0x29]].flatten = "(λ\n)".toUTF8.data.toList := by
    decide
  have hagrees := (bytes_agree Utf8.strict_answers).1 "(λ\n)" _ h
  exact ⟨Utf8.strict_answers, h, fun k => (hagrees.1 k).1.trans (hagrees.1 k).2,
    (hagrees.2.2 _ Dialect.scheme () 1 [.readAll, .next]).1⟩

/-- A character of three bytes breaks off in the next piece, where a bracket stands. -/
example :
    yields ByteChars.next? 4 { answers := Utf8.answers [[0x28, 0xE2], [0x82, 0x29]] none } =
      [some (.ok ('(', ⟨0, 0⟩)), some (.error (.invalidBytes [0xE2, 0x82], ⟨0, 1⟩)), none, none] :=
  rfl

end Source

end SExpr
