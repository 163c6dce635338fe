import SExpr.Source.Utf8

/-!
# Sources

Where characters come from. There is an iterator over a text and one over bytes, of which a decoder
makes characters; each counts the places of its characters by itself. To a cursor an iterator is
what it yields when it is asked again and again: characters with their places, and then perhaps a
fault, after which there is nothing more. That is a source.
-/

namespace SExpr

/-! ## Iterators -/

/-- What an iterator yields: a character with its place, or a fault with the place counted to. -/
abbrev Yield := Except (Fault × Pos) (Char × Pos)

/-- An iterator over the characters of a text. -/
structure TextChars where
  rest : List Char
  pos : Pos := .start

/-- What is yielded next, and the iterator afterwards. -/
def TextChars.next? (t : TextChars) : Option (Yield × TextChars) :=
  match t.rest with
  | [] => none
  | c :: rest => some (.ok (c, t.pos), { rest, pos := t.pos.advance c })

/-- An iterator over the characters that a decoder makes of bytes. The decoder hands them out in
chunks, and is known here by its answers when it is asked for more. -/
structure ByteChars where
  /-- What is left of the chunk at hand. -/
  chunk : List Char := []
  /-- What the decoder has still to answer. -/
  answers : List (Except Fault (List Char))
  pos : Pos := .start

namespace ByteChars

/-- Runs up to the next yield. When the chunk at hand is used up, the decoder is asked for another
one; after an error it is not asked again. -/
def resume (pos : Pos) : List Char → List (Except Fault (List Char)) → Option (Yield × ByteChars)
  | c :: chunk, answers => some (.ok (c, pos), { chunk, answers, pos := pos.advance c })
  | [], .ok chunk :: answers => resume pos chunk answers
  | [], .error fault :: _ => some (.error (fault, pos), { answers := [], pos })
  | [], [] => none

/-- What is yielded next, and the iterator afterwards. -/
def next? (b : ByteChars) : Option (Yield × ByteChars) := resume b.pos b.chunk b.answers

end ByteChars

/-! ## Sources -/

/-- What an iterator yields from some moment on. -/
structure Source where
  /-- The characters to come, each with its place. -/
  located : List (Char × Pos)
  /-- What goes wrong after the last character, and where. -/
  broken : Option (Fault × Pos) := none

namespace Source

/-- What an iterator yields when it is asked up to `n` times. -/
def ofIterator {ι : Type} (next? : ι → Option (Yield × ι)) : Nat → ι → Source
  | 0, _ => { located := [] }
  | n + 1, i =>
    match next? i with
    | none => { located := [] }
    | some (.error broken, _) => { located := [], broken }
    | some (.ok c, i) =>
      let s := ofIterator next? n i
      { s with located := c :: s.located }

def ofString (s : String) : Source :=
  ofIterator TextChars.next? s.toList.length { rest := s.toList }

/-- The characters that a decoder makes of bytes, by its answers. The iterator yields each of them,
and perhaps a fault. -/
def ofAnswers (answers : List (Except Fault (List Char))) : Source :=
  let chars := answers.flatMap fun
    | .ok chunk => chunk
    | .error _ => []
  ofIterator ByteChars.next? (chars.length + 1) { answers }

/-- The characters that bytes stand for, which come in pieces. The stream may fail after them. -/
def ofChunks (chunks : List (List UInt8)) (failing : Option String) : Source :=
  ofAnswers (Utf8.answers chunks failing)

/-- The characters to come. -/
def rest (s : Source) : List Char := s.located.map Prod.fst

/-- What goes wrong after the last character. -/
def fault (s : Source) : Option Fault := s.broken.map Prod.fst

/-- The place of what comes next, be it a character or a fault. -/
def pos (s : Source) : Pos :=
  match s.located, s.broken with
  | (_, p) :: _, _ => p
  | [], some (_, p) => p
  | [], none => .start

/-- Asks for the next character: the character and its place, or nothing at the end, or the cause
of a failure; and the source afterwards. -/
def pull (s : Source) : Except Cause (Option (Char × Pos)) × Source :=
  match s.located with
  | c :: located => (.ok (some c), { s with located })
  | [] =>
    match s.broken with
    | some (fault, p) => (.error (.source fault p), { s with broken := none })
    | none => (.ok none, s)

end Source

end SExpr
