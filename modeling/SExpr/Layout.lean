import SExpr.Compact

/-!
# Block layout

A long value is written over several lines. First every list that is too long for a line is broken
up, one item a line, the closing bracket on a line of its own; then short lines are joined again.
-/

namespace SExpr

/-- When a text is broken into lines. -/
structure Layout where
  /-- The longest text that is always left on one line. -/
  compactLimit : Nat := 40
  /-- The longest list that is not broken up; joined lines stay shorter. -/
  lineLimit : Nat := 80

/-- A text to lay out: lists can be broken up, and all else stays whole. -/
inductive Box where
  | leaf (text : List Char)
  | group (items : List Box)

namespace Box

mutual

def length : Box → Nat
  | leaf text => text.length
  | group items => lengths items + (items.length - 1) + 2

def lengths : List Box → Nat
  | [] => 0
  | b :: bs => length b + lengths bs

end

mutual

def compact : Box → List Char
  | leaf text => text
  | group items => '(' :: [' '].intercalate (compactAll items) ++ [')']

def compactAll : List Box → List (List Char)
  | [] => []
  | b :: bs => compact b :: compactAll bs

end

def indented (indent : Nat) (text : List Char) : List Char := List.replicate indent ' ' ++ text

mutual

/-- The lines of a box: a list longer than `limit` is broken up. Its first item stays beside the
bracket if it is a leaf. -/
def lines (limit indent : Nat) : Box → List (List Char)
  | leaf text => [indented indent text]
  | group [] => [indented indent ['(', ')']]
  | group (b :: bs) =>
    if limit < length (group (b :: bs)) then
      (match b with
        | leaf text => indented indent ('(' :: text) :: linesAll limit (indent + 1) bs
        | group items =>
          indented indent ['('] ::
            (lines limit (indent + 1) (group items) ++ linesAll limit (indent + 1) bs)) ++
        [indented indent [')']]
    else [indented indent (compact (group (b :: bs)))]

/-- The lines of boxes, one box after the other. -/
def linesAll (limit indent : Nat) : List Box → List (List Char)
  | [] => []
  | b :: bs => lines limit indent b ++ linesAll limit indent bs

end

end Box

namespace Layout

/-- Joins lines to an output line of the given width. A line that closes a list always joins, and
one that opens a list never does; any other joins after a blank while the line stays shorter than
`limit`. The text ends with a newline. -/
def joinAfter (limit width : Nat) : List (List Char) → List Char
  | [] => ['\n']
  | line :: lines =>
    let text := line.dropWhile Text.isBlank
    if text.head? = some ')' then text ++ joinAfter limit (width + text.length) lines
    else if text.head? ≠ some '(' ∧ width + text.length + 1 < limit then
      ' ' :: text ++ joinAfter limit (width + text.length + 1) lines
    else '\n' :: line ++ joinAfter limit line.length lines

/-- Joins lines as far as they fit. Lines without any character are dropped at the start. -/
def joinLines (limit : Nat) : List (List Char) → List Char
  | [] => ['\n']
  | line :: lines =>
    if line.isEmpty then joinLines limit lines else line ++ joinAfter limit line.length lines

end Layout

namespace Value

mutual

/-- The value as a box: lists are groups, and everything else is a leaf. -/
def box (sp : Spelling) (ab : Abbreviations) : Value → Box
  | list items => .group (boxAll sp (ab.scope items) 0 items)
  | atom a => .leaf (compact sp ab (atom a))
  | vector items => .leaf (compact sp ab (vector items))
  | term h t => .leaf (compact sp ab (term h t))

/-- The items of a list from the `i`-th on as boxes. -/
def boxAll (sp : Spelling) (scope : Nat → Abbreviations) (i : Nat) : List Value → List Box
  | [] => []
  | v :: vs => box sp (scope i) v :: boxAll sp scope (i + 1) vs

end

/-- The text of a value with a newline at its end, broken into lines if it is long. -/
def format (layout : Layout) (sp : Spelling) (ab : Abbreviations) (v : Value) : List Char :=
  let box := v.box sp ab
  if layout.compactLimit < box.length then
    Layout.joinLines layout.lineLimit (box.lines layout.lineLimit 0)
  else box.compact ++ ['\n']

def formatAll (layout : Layout) (sp : Spelling) (ab : Abbreviations) (vs : List Value) :
    List Char :=
  vs.flatMap (format layout sp ab)

end Value

end SExpr
