import GeneralParsing.Error

/-!
# Patterns

A **pattern** is a terminal that matches a whole symbol, not a part of one. It is kept as the
regular expression between anchors: the text `P` is read once more as `^(?:P)$`. `P` has to be a
regular expression by itself, too; otherwise a stray parenthesis in it could close the group that
the anchors stand around.

Reading regular expressions and searching for their matches is left to a `PatternReader`. Nothing
is asked of it here; what a theorem needs to know of it, the theorem says.
-/

namespace GeneralParsing

/-- What **reads regular expressions** and searches texts for them. -/
class PatternReader where
  /-- Reads a text as a regular expression, which becomes the test whether a text has a match of
  it anywhere, or refuses it. -/
  read? (source : List Char) : Option (List Char → Bool)

/-- A **pattern**: its source, and the test that decides matches. -/
structure Pattern where
  /-- The text the pattern was read from. -/
  source : String
  /-- Whether a text has a match of the source between anchors. -/
  anchored : List Char → Bool

namespace Pattern

/-- The source **between anchors**. -/
def anchor (source : List Char) : List Char :=
  ['^', '(', '?', ':'] ++ source ++ [')', '$']

/-- **Reads** a pattern. -/
def read [PatternReader] (source : String) : Except Error Pattern :=
  match PatternReader.read? source.toList, PatternReader.read? (anchor source.toList) with
  | some _, some anchored => .ok ⟨source, anchored⟩
  | _, _ => .error (.invalidPattern source)

/-- Whether the pattern matches the **whole symbol**. -/
def accepts (p : Pattern) (symbol : String) : Bool := p.anchored symbol.toList

section

variable [PatternReader] {source : String} {p : Pattern}

theorem read_eq_ok_iff : read source = .ok p ↔
    (PatternReader.read? source.toList).isSome ∧
      PatternReader.read? (anchor source.toList) = some p.anchored ∧ p.source = source := by
  obtain ⟨source', anchored⟩ := p
  unfold read
  split
  · next m m' h h' => simp [h, h', and_comm, eq_comm]
  · next h =>
    constructor
    · exact nofun
    · rintro ⟨hsome, hanchor, -⟩
      obtain ⟨m, hm⟩ := Option.isSome_iff_exists.mp hsome
      exact (h m anchored hm hanchor).elim

theorem source_of_read (h : read source = .ok p) : p.source = source :=
  (read_eq_ok_iff.mp h).2.2

theorem read_error {e : Error} (h : read source = .error e) : e = .invalidPattern source := by
  unfold read at h
  split at h
  · cases h
  · exact (Except.error.inj h).symm

end

end Pattern

end GeneralParsing
