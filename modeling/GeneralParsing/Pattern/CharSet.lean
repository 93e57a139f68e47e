import GeneralParsing.Text.Blank
import GeneralParsing.Text.DecimalDigit
import GeneralParsing.Text.WordCharacter

/-!
# Sets of characters

A pattern matches one character at a time against a **character set**: an expression built from
ranges and named classes by union, intersection and complement. `CharSet.mem` decides membership.
Difference and symmetric difference are derived.
-/

namespace GeneralParsing

/-- The **case variants** of a character: itself, its other case for the letters `a` to `z`, and
the two letters outside ASCII whose case folds into ASCII, the Kelvin sign and the long s. -/
def caseVariants (c : Char) : List Char :=
  if c = 'k' ∨ c = 'K' ∨ c = '\u212A' then ['k', 'K', '\u212A']
  else if c = 's' ∨ c = 'S' ∨ c = '\u017F' then ['s', 'S', '\u017F']
  else if c.isLower then [c, c.toUpper]
  else if c.isUpper then [c, c.toLower]
  else [c]

/-- An expression for a **set of characters**. -/
inductive CharSet where
  /-- No character. -/
  | empty
  /-- The characters from the first to the last, both included. -/
  | range (first last : Char)
  /-- The decimal digits of all scripts. -/
  | digit
  /-- White space. -/
  | blank
  /-- The word characters of all scripts. -/
  | word
  /-- The characters in either set. -/
  | union (a b : CharSet)
  /-- The characters in both sets. -/
  | inter (a b : CharSet)
  /-- The characters that are not in the set. -/
  | compl (a : CharSet)
  /-- The characters one of whose case variants is in the set. -/
  | anyCase (a : CharSet)
  deriving Repr, DecidableEq

namespace CharSet

/-- **Membership** of a character. -/
def mem : CharSet → Char → Bool
  | empty, _ => false
  | range first last, c => first ≤ c && c ≤ last
  | digit, c => isDecimalDigit c
  | blank, c => isBlank c
  | word, c => isWordCharacter c
  | union a b, c => a.mem c || b.mem c
  | inter a b, c => a.mem c && b.mem c
  | compl a, c => !a.mem c
  | anyCase a, c => (caseVariants c).any a.mem

/-- The set of **one character**. -/
def single (c : Char) : CharSet := range c c

/-- The characters of the first set that are **not in the second**. -/
def diff (a b : CharSet) : CharSet := inter a (compl b)

/-- The characters in **exactly one** of the sets. -/
def symmDiff (a b : CharSet) : CharSet := union (diff a b) (diff b a)

/-- The set of **all characters**. -/
def all : CharSet := compl empty

/-- The set, or its complement. -/
def negateIf (negated : Bool) (a : CharSet) : CharSet := if negated then compl a else a

/-- The union of a list of ranges. -/
def ofRanges (ranges : List (Char × Char)) : CharSet :=
  ranges.foldr (fun r a => union (range r.1 r.2) a) empty

@[simp] theorem mem_single {a c : Char} : (single a).mem c = true ↔ c = a := by
  simp only [single, mem, Bool.and_eq_true, decide_eq_true_eq]
  exact ⟨fun h => Char.le_antisymm h.2 h.1, fun h => h ▸ ⟨Char.le_refl _, Char.le_refl _⟩⟩

@[simp] theorem mem_all (c : Char) : all.mem c = true := rfl

end CharSet

end GeneralParsing
