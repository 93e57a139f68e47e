/-!
# Tables of code points

A property of characters that a standard fixes by enumeration is kept as a **range table**:
closed ranges of code points in increasing order. `CodeRanges.contains` looks a character up.
The tables themselves live in the modules named for their property.
-/

namespace GeneralParsing

/-- A **range table**: closed ranges of code points, each written `(first, last)`. -/
abbrev CodeRanges := List (Nat × Nat)

/-- Whether one of the ranges holds the character. -/
def CodeRanges.contains (table : CodeRanges) (c : Char) : Bool :=
  table.any fun range => range.1 ≤ c.toNat && c.toNat ≤ range.2

theorem CodeRanges.contains_iff {table : CodeRanges} {c : Char} :
    table.contains c = true ↔ ∃ range ∈ table, range.1 ≤ c.toNat ∧ c.toNat ≤ range.2 := by
  simp [CodeRanges.contains]

end GeneralParsing
