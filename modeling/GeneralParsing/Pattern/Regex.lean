/-!
# Regular expressions and their matches

A `Regex` is built from **items**, about which no more is known here than where a match of an item
can end that begins at a **cursor**, a place between two characters of a text. `Regex.ends r c`
lists the cursors at which a match of `r` that begins at `c` can end. Which of several matches a
search would prefer is of no concern here: a text matches as soon as one match exists, so greedy
and lazy repetition mean the same.

The list of ends is finite and without repeats because a match only moves forward, and there are
finitely many places ahead of the cursor.
-/

namespace GeneralParsing

/-- A **place in a text**: the characters before it, nearest first, and the characters after
it. -/
structure Cursor where
  /-- The characters before the cursor, the nearest first. -/
  before : List Char
  /-- The characters after the cursor, the nearest first. -/
  after : List Char
  deriving Repr, DecidableEq

namespace Cursor

/-- The cursor **at the beginning** of a text. -/
def start (text : List Char) : Cursor := ⟨[], text⟩

/-- The cursor **at the end** of a text. -/
def finish (text : List Char) : Cursor := ⟨text.reverse, []⟩

/-- The cursors **at or after** a place, in order. -/
def onward (before : List Char) : List Char → List Cursor
  | [] => [⟨before, []⟩]
  | c :: rest => ⟨before, c :: rest⟩ :: onward (c :: before) rest

/-- All the cursors of a text, in order. -/
def places (text : List Char) : List Cursor := onward [] text

/-- A **step** leads from a cursor to several others. The places reached by exactly `n` steps. -/
def exactly (step : Cursor → List Cursor) : Nat → List Cursor → List Cursor
  | 0, cs => cs
  | n + 1, cs => exactly step n (cs.flatMap step).eraseDups

/-- The places reached by **at most** `n` steps. -/
def within (step : Cursor → List Cursor) : Nat → List Cursor → List Cursor
  | 0, cs => cs
  | n + 1, cs =>
    let fresh := (cs.flatMap step).eraseDups.filter (!cs.contains ·)
    if fresh.isEmpty then cs else within step n (cs ++ fresh)

end Cursor

/-- A **regular expression** over items of some type. -/
inductive Regex (ι : Type) where
  /-- The empty text. -/
  | empty
  /-- What the item matches. -/
  | item (i : ι)
  /-- The first and then the second. -/
  | seq (a b : Regex ι)
  /-- Either. -/
  | alt (a b : Regex ι)
  /-- At least `min` matches in a row, and at most `max` where there is one. -/
  | rep (a : Regex ι) (min : Nat) (max : Option Nat)
  deriving Repr, DecidableEq

namespace Regex

variable {ι : Type}

/-- The places where a match that begins at the cursor **can end**, from those of the items.
Without a bound on a repetition, as many rounds as there are characters ahead reach every place
that any number of rounds reaches. -/
def ends (step : ι → Cursor → List Cursor) : Regex ι → Cursor → List Cursor
  | empty, c => [c]
  | item i, c => step i c
  | seq a b, c => ((a.ends step c).flatMap (b.ends step)).eraseDups
  | alt a b, c => (a.ends step c ++ b.ends step c).eraseDups
  | rep a min max, c =>
    let extra := match max with
      | some m => m - min
      | none => c.after.length
    Cursor.within (a.ends step) extra (Cursor.exactly (a.ends step) min [c])

/-- Whether the expression **matches somewhere** in the text. -/
def occursIn (step : ι → Cursor → List Cursor) (r : Regex ι) (text : List Char) : Bool :=
  (Cursor.places text).any fun c => !(r.ends step c).isEmpty

/-- The sequence of a list of expressions. -/
def sequence (rs : List (Regex ι)) : Regex ι :=
  match rs with
  | [] => empty
  | [r] => r
  | r :: more => seq r (sequence more)

/-- The choice among an expression and others. -/
def choice (r : Regex ι) : List (Regex ι) → Regex ι
  | [] => r
  | s :: more => alt r (choice s more)

end Regex

end GeneralParsing
