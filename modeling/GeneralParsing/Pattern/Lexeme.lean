import GeneralParsing.Pattern.Regex

/-!
# Reading regular expressions lexeme by lexeme

The text of a regular expression is read from left to right, one **lexeme** at a time: an item, a
repetition, a bar, the beginning or the end of a group, or a change of mode. What the items are,
and which modes there are, is left open; a function says what stands first in a text.

The lexemes are put together with one **layer** for each open group: the branches finished so far
and the parts of the branch being read. A repetition applies to the newest part. Modes hold to the
end of the group in which they are set, so a group remembers the modes outside it. Lazy repetition
differs from greedy repetition in which match is preferred only, and has no lexeme of its own.
-/

namespace GeneralParsing

/-- A **lexeme** of a regular expression with items of type `ι` and modes of type `μ`. -/
inductive Lexeme (ι μ : Type) where
  /-- An item. -/
  | item (i : ι)
  /-- What is newest, repeated. -/
  | repeated (min : Nat) (max : Option Nat)
  /-- The bar between branches. -/
  | bar
  /-- The beginning of a group, with the modes that hold in it and its name if it has one. -/
  | opening (modes : μ) (name : Option (List Char))
  /-- A change of mode for what follows in the enclosing group. -/
  | switch (modes : μ)
  /-- The end of a group. -/
  | closing

/-- What **stands first** in a text. -/
inductive Lexed (ι μ : Type) where
  /-- Nothing that means anything. -/
  | done
  /-- Something that is no lexeme. -/
  | refused
  /-- A lexeme, with the text behind it. -/
  | lexeme (l : Lexeme ι μ) (rest : List Char)

/-- One **open group**: its finished branches and the parts of the branch being read, newest
first. A change of mode is a part that cannot be repeated. -/
structure Layer (ι : Type) where
  /-- The finished branches, the newest first. -/
  branches : List (Regex ι) := []
  /-- The parts of the open branch, the newest first. -/
  parts : List (Option (Regex ι)) := []

namespace Layer

variable {ι : Type}

/-- The open branch as an expression. -/
def branch (layer : Layer ι) : Regex ι := .sequence (layer.parts.reverse.filterMap id)

/-- **Finishes** the open branch and begins the next. -/
def nextBranch (layer : Layer ι) : Layer ι := ⟨layer.branch :: layer.branches, []⟩

/-- The group as an expression. -/
def regex (layer : Layer ι) : Regex ι :=
  match (layer.branch :: layer.branches).reverse with
  | [] => .empty
  | r :: more => .choice r more

/-- Adds a part to the open branch. -/
def push (layer : Layer ι) (r : Regex ι) : Layer ι := { layer with parts := some r :: layer.parts }

/-- **Repeats** the newest part, if it can be repeated. -/
def repeatLast (layer : Layer ι) (min : Nat) (max : Option Nat) : Option (Layer ι) :=
  match layer.parts with
  | some r :: more => some { layer with parts := some (.rep r min max) :: more }
  | _ => none

end Layer

/-- **How far** a text has been read: the innermost group, the modes in it, the groups around it
with the modes to return to, and the names given to groups. -/
structure Progress (ι μ : Type) where
  /-- The innermost open group. -/
  layer : Layer ι := {}
  /-- The modes that hold now. -/
  modes : μ
  /-- The groups around it, each with the modes that hold in it. -/
  outer : List (Layer ι × μ) := []
  /-- The names of groups so far. -/
  names : List (List Char) := []

namespace Progress

variable {ι μ : Type}

/-- **Goes on** with a lexeme, if it fits. Names of groups are distinct. -/
def take (p : Progress ι μ) : Lexeme ι μ → Option (Progress ι μ)
  | .item i => some { p with layer := p.layer.push (.item i) }
  | .repeated min max => (p.layer.repeatLast min max).map fun layer => { p with layer }
  | .bar => some { p with layer := p.layer.nextBranch }
  | .opening modes name =>
    if name.any p.names.contains then none
    else some {
      layer := {}, modes, outer := (p.layer, p.modes) :: p.outer
      names := name.toList ++ p.names }
  | .switch modes => some { p with modes, layer := { p.layer with parts := none :: p.layer.parts } }
  | .closing =>
    match p.outer with
    | [] => none
    | (layer, modes) :: outer => some { p with layer := layer.push p.layer.regex, modes, outer }

/-- Reads **to the end** of the text, given what stands first in a text in which modes. Every
lexeme takes at least one character, so the length of the text bounds the number of steps. -/
def finish? (next : μ → List Char → Lexed ι μ) :
    Nat → Progress ι μ → List Char → Option (Regex ι)
  | 0, _, _ => none
  | fuel + 1, p, cs =>
    match next p.modes cs with
    | .done => if p.outer.isEmpty then some p.layer.regex else none
    | .refused => none
    | .lexeme l rest => do finish? next fuel (← p.take l) rest

end Progress

end GeneralParsing
